import Fossil.Head

/-! The exporter's incarnation journal.

The exporter gives each account lifetime a number. It keeps one row for each
address it has seen, and reads the number of a storage write from the row. -/

namespace Fossil

/-- A row of the `lifetime` table. -/
structure LifetimeRow where
  incarnation : Nat
  existsNow : Bool
  deriving DecidableEq

/-- The `lifetime` table, whose primary key is the address. -/
abbrev Journal := Text → Option LifetimeRow

def Journal.empty : Journal := fun _ => none

def sqliteIntegers : Nat := 2 ^ 63

/-- `INSERT OR REPLACE`: an integer of the table is a signed 64-bit number. -/
def Journal.replace (db : Journal) (address : Text) (row : LifetimeRow) : Result Journal :=
  if row.incarnation < sqliteIntegers then .ok (Function.update db address (some row))
  else bail "Python int too large to convert to SQLite INTEGER"

/-- The flags of one account entry. -/
structure LifetimeCall where
  address : Text
  previousExists : Bool
  existing : Bool
  wiped : Bool
  deriving DecidableEq

/-- The incarnation a call starts from. -/
def LifetimeCall.base (call : LifetimeCall) : Option LifetimeRow → Result Nat
  -- At the system-only baseline, existing accounts have incarnation zero.
  | none => .ok 0
  | some ⟨incarnation, before⟩ =>
      if before ≠ call.previousExists then
        bail ("inconsistent account lifetime for " ++ String.ofList call.address)
      else .ok (if call.existing ∧ ¬ before then incarnation + 1 else incarnation)

def lifetime (db : Journal) (call : LifetimeCall) : Result (Nat × Journal) := do
  let row := db call.address
  let base ← call.base row
  let incarnation := if call.existing ∧ call.previousExists ∧ call.wiped then base + 1 else base
  if row ≠ none ∨ call.previousExists ∨ call.existing then do
    let db ← db.replace call.address ⟨incarnation, call.existing⟩
    .ok (incarnation, db)
  else .ok (incarnation, db)

/-- The incarnation `convert` writes into the storage records of an address. -/
def storageIncarnation (db : Journal) (address : Text) : Result Nat :=
  match db address with
  | none => .ok 0
  | some row =>
      if row.existsNow then .ok row.incarnation
      else bail ("storage update for absent account " ++ String.ofList address)

/-- A call and the incarnation it returned. -/
structure Lifetime extends LifetimeCall where
  incarnation : Nat
  deriving DecidableEq

/-- The calls of a whole export, of any addresses, with what they returned. -/
def lifetimes (db : Journal) : List LifetimeCall → Result (List Lifetime × Journal)
  | [] => .ok ([], db)
  | call :: calls => do
      let (incarnation, db) ← lifetime db call
      let (history, db) ← lifetimes db calls
      .ok (⟨call, incarnation⟩ :: history, db)

/-- A call that ends the lifetime before it: the account is gone, or it was
wiped in place. -/
def LifetimeCall.Ends (call : LifetimeCall) : Prop :=
  call.existing = false ∨ call.previousExists ∧ call.existing ∧ call.wiped

section

variable {db later : Journal} {call : LifetimeCall} {incarnation : Nat} {address : Text}

/-! One call. -/

/-- The incarnation of the row of an address, zero without a row. -/
def Journal.floor (db : Journal) (address : Text) : Nat :=
  match db address with
  | none => 0
  | some row => row.incarnation

/-- The least incarnation that a live entry of an address can get next. -/
def Journal.next (db : Journal) (address : Text) : Nat :=
  match db address with
  | none => 0
  | some row => if row.existsNow then row.incarnation else row.incarnation + 1

theorem Journal.next_bounds (db : Journal) (address : Text) :
    db.floor address ≤ db.next address ∧ db.next address ≤ db.floor address + 1 := by
  unfold Journal.floor Journal.next
  split
  · simp
  · split <;> simp

theorem Journal.replace_eq_ok {row : LifetimeRow} :
    db.replace address row = .ok later ↔
      row.incarnation < sqliteIntegers ∧ later = Function.update db address (some row) := by
  unfold Journal.replace
  split
  · simp [*, eq_comm]
  · simp [*]

theorem LifetimeCall.base_eq_ok {base : Nat} (based : call.base (db call.address) = .ok base) :
    (∀ row ∈ db call.address, row.existsNow = call.previousExists) ∧
      base = if call.existing then db.next call.address else db.floor call.address := by
  unfold Journal.next Journal.floor
  cases found : db call.address with
  | none =>
      rw [found] at based
      cases based
      simp
  | some row =>
      rw [found] at based
      obtain ⟨same, based⟩ := guard_eq_ok.mp based
      cases based
      refine ⟨by simpa using same, ?_⟩
      cases call.existing <;> cases live : row.existsNow <;> simp [live]

/-- The cases of a call: no row is kept of an account that neither exists nor
existed, and any other call leaves a row with what it returned. -/
theorem lifetime_eq_ok (done : lifetime db call = .ok (incarnation, later)) :
    (∀ row ∈ db call.address, row.existsNow = call.previousExists) ∧
    incarnation = (if call.existing then db.next call.address else db.floor call.address) +
      (if call.existing ∧ call.previousExists ∧ call.wiped then 1 else 0) ∧
    (db call.address = none ∧ call.previousExists = false ∧ call.existing = false ∧ later = db ∨
      incarnation < sqliteIntegers ∧
        later = Function.update db call.address (some ⟨incarnation, call.existing⟩)) := by
  obtain ⟨base, based, rest⟩ := bind_eq_ok.mp done
  obtain ⟨agrees, value⟩ := call.base_eq_ok based
  have shift : (if call.existing ∧ call.previousExists ∧ call.wiped then base + 1 else base) =
      base + if call.existing ∧ call.previousExists ∧ call.wiped then 1 else 0 := by
    split <;> rfl
  dsimp only at rest
  rw [shift, value] at rest
  refine ⟨agrees, ?_⟩
  by_cases kept : db call.address ≠ none ∨ call.previousExists ∨ call.existing
  · rw [if_pos kept] at rest
    obtain ⟨next, replaced, rest⟩ := bind_eq_ok.mp rest
    cases rest
    exact ⟨rfl, .inr (Journal.replace_eq_ok.mp replaced)⟩
  · rw [if_neg kept] at rest
    cases rest
    simp only [not_or, not_not, Bool.not_eq_true] at kept
    exact ⟨rfl, .inl ⟨kept.1, kept.2.1, kept.2.2, rfl⟩⟩

/-- What one call does to the numbers of its address. -/
structure Renumbers (db later : Journal) (call : LifetimeCall) (incarnation : Nat) : Prop where
  bound : incarnation < sqliteIntegers
  floor : later.floor call.address = incarnation
  low : db.floor call.address ≤ incarnation
  next : db.next call.address ≤ later.next call.address
  live : call.existing → db.next call.address ≤ incarnation
  -- A lifetime ends when there was one.
  ended : db call.address ≠ none ∨ call.previousExists → call.Ends →
    db.floor call.address < later.next call.address
  wiped : call.existing → call.Ends → db.floor call.address < incarnation

theorem lifetime_renumbers (done : lifetime db call = .ok (incarnation, later)) :
    Renumbers db later call incarnation := by
  obtain ⟨agrees, value, left⟩ := lifetime_eq_ok done
  have bounds := db.next_bounds call.address
  obtain ⟨absent, before, gone, rfl⟩ | ⟨bound, same⟩ := left
  · have zero : incarnation = 0 := by simp [value, gone, Journal.floor, absent]
    constructor <;>
      simp [zero, Journal.floor, Journal.next, absent, before, gone, sqliteIntegers]
  · have floorAfter : later.floor call.address = incarnation := by simp [same, Journal.floor]
    have nextAfter : later.next call.address =
        if call.existing then incarnation else incarnation + 1 := by
      simp [same, Journal.next]
    have low : db.floor call.address ≤ incarnation := by
      rw [value]
      split <;> omega
    have live : call.existing → db.next call.address ≤ incarnation := by
      intro existing
      rw [value, if_pos existing]
      omega
    have wiped : call.existing → call.Ends → db.floor call.address < incarnation := by
      intro existing ends
      obtain gone | ⟨before, _, wiped⟩ := ends
      · simp [existing] at gone
      · rw [value, if_pos existing, if_pos ⟨existing, before, wiped⟩]
        omega
    refine ⟨bound, floorAfter, low, ?_, live, ?_, wiped⟩
    · rw [nextAfter]
      split
      · exact live ‹_›
      · omega
    · intro _ ends
      rw [nextAfter]
      split
      · exact wiped ‹_› ends
      · omega

theorem lifetime_frame (done : lifetime db call = .ok (incarnation, later))
    (other : address ≠ call.address) : later address = db address := by
  obtain ⟨_, _, ⟨_, _, _, rfl⟩ | ⟨_, rfl⟩⟩ := lifetime_eq_ok done
  · rfl
  · exact Function.update_of_ne other _ _

theorem lifetime_present (done : lifetime db call = .ok (incarnation, later))
    (present : db address ≠ none) : later address ≠ none := by
  obtain ⟨_, _, ⟨_, _, _, rfl⟩ | ⟨_, rfl⟩⟩ := lifetime_eq_ok done
  · exact present
  · by_cases same : address = call.address
    · simp [same]
    · simpa [same] using present

/-! Whole exports. -/

variable {history before after : List Lifetime} {final : Journal}

/-- The calls of the history, made in order, return what it says they did. -/
def Journal.Answers (db : Journal) (history : List Lifetime) (later : Journal) : Prop :=
  lifetimes db (history.map Lifetime.toLifetimeCall) = .ok (history, later)

theorem lifetimes_answers {calls : List LifetimeCall} (ran : lifetimes db calls = .ok (history, later)) :
    history.map Lifetime.toLifetimeCall = calls ∧ db.Answers history later := by
  have same : history.map Lifetime.toLifetimeCall = calls := by
    induction calls generalizing db history with
    | nil =>
        cases ran
        rfl
    | cons call calls ih =>
        obtain ⟨⟨incarnation, _⟩, _, ran⟩ := bind_eq_ok.mp ran
        obtain ⟨⟨rest, _⟩, ran, done⟩ := bind_eq_ok.mp ran
        cases done
        rw [List.map_cons, ih ran]
  exact ⟨same, by rw [Journal.Answers, same, ran]⟩

@[simp] theorem answers_nil : db.Answers [] later ↔ later = db := by
  simp [Journal.Answers, lifetimes, eq_comm]

@[simp] theorem answers_cons {entry : Lifetime} :
    db.Answers (entry :: history) later ↔
      ∃ mid, lifetime db entry.toLifetimeCall = .ok (entry.incarnation, mid) ∧
        mid.Answers history later := by
  constructor
  · intro answers
    obtain ⟨⟨incarnation, mid⟩, called, rest⟩ := bind_eq_ok.mp answers
    obtain ⟨⟨more, _⟩, ran, done⟩ := bind_eq_ok.mp rest
    simp only [Except.ok.injEq, Prod.mk.injEq, List.cons.injEq] at done
    obtain ⟨⟨same, rfl⟩, rfl⟩ := done
    rw [← same]
    exact ⟨mid, called, ran⟩
  · intro ⟨mid, called, answers⟩
    unfold Journal.Answers at answers ⊢
    rw [List.map_cons, lifetimes, called, ok_bind]
    dsimp only
    rw [answers, ok_bind]

theorem answers_append : db.Answers (before ++ after) later ↔
    ∃ mid, db.Answers before mid ∧ mid.Answers after later := by
  induction before generalizing db with
  | nil => simp
  | cons entry before ih =>
      simp only [List.cons_append, answers_cons, ih]
      constructor
      · intro ⟨first, called, mid, left, right⟩
        exact ⟨mid, ⟨first, called, left⟩, right⟩
      · intro ⟨mid, ⟨first, called, left⟩, right⟩
        exact ⟨first, called, mid, left, right⟩

/-- What a whole export does to the numbers of one address. -/
structure Rises (db later : Journal) (address : Text) : Prop where
  floor : db.floor address ≤ later.floor address
  next : db.next address ≤ later.next address
  present : db address ≠ none → later address ≠ none

theorem Rises.refl (db : Journal) (address : Text) : Rises db db address :=
  ⟨Nat.le_refl _, Nat.le_refl _, id⟩

theorem Rises.trans {mid : Journal} (left : Rises db mid address) (right : Rises mid later address) :
    Rises db later address :=
  ⟨left.floor.trans right.floor, left.next.trans right.next, right.present ∘ left.present⟩

theorem lifetime_rises (done : lifetime db call = .ok (incarnation, later)) (address : Text) :
    Rises db later address := by
  by_cases same : address = call.address
  · have renumbers := lifetime_renumbers done
    subst same
    exact ⟨renumbers.floor.symm ▸ renumbers.low, renumbers.next, lifetime_present done⟩
  · have frame := lifetime_frame done same
    constructor <;> simp [Journal.floor, Journal.next, frame]

theorem answers_rises (answers : db.Answers history later) (address : Text) :
    Rises db later address := by
  induction history generalizing db with
  | nil =>
      rw [answers_nil.mp answers]
      exact Rises.refl db address
  | cons entry history ih =>
      obtain ⟨mid, called, rest⟩ := answers_cons.mp answers
      exact (lifetime_rises called address).trans (ih rest)

theorem answers_entry (answers : db.Answers history later) {entry : Lifetime} (member : entry ∈ history) :
    entry.incarnation < sqliteIntegers ∧ db.floor entry.address ≤ entry.incarnation ∧
      (entry.existing → db.next entry.address ≤ entry.incarnation) := by
  obtain ⟨before, after, rfl⟩ := List.append_of_mem member
  obtain ⟨mid, left, right⟩ := answers_append.mp answers
  obtain ⟨_, called, _⟩ := answers_cons.mp right
  have rises := answers_rises left entry.address
  have renumbers := lifetime_renumbers called
  exact ⟨renumbers.bound, rises.floor.trans renumbers.low,
    fun existing => rises.next.trans (renumbers.live existing)⟩

/-! Lifetimes do not meet. -/

/-- No storage key of an address is shared between two incarnations. -/
def Apart (first second : Nat) : Prop :=
  ∀ address slot slot', storageKey address (UInt64.ofNat first) slot ≠
    storageKey address (UInt64.ofNat second) slot'

theorem apart_of_lt {first second : Nat} (less : first < second) (bound : second < sqliteIntegers) :
    Apart first second := by
  intro address slot slot' same
  have equal := congrArg UInt64.toNat (storageKey_inj.mp same).2.1
  simp only [sqliteIntegers] at bound
  have small : second < 2 ^ 64 := by omega
  rw [UInt64.toNat_ofNat_of_lt' (less.trans small), UInt64.toNat_ofNat_of_lt' small] at equal
  omega

theorem answers_pairwise (answers : db.Answers history later) :
    history.Pairwise (fun first second => first.address = second.address →
      first.incarnation ≤ second.incarnation) := by
  induction history generalizing db with
  | nil => exact .nil
  | cons entry history ih =>
      obtain ⟨mid, called, rest⟩ := answers_cons.mp answers
      refine .cons ?_ (ih rest)
      intro second member same
      have low := (answers_entry rest member).2.1
      rwa [← same, (lifetime_renumbers called).floor] at low

/-- After a call that ends a lifetime, live entries are numbered above it. -/
theorem answers_ended {entry : Lifetime} (answers : db.Answers (entry :: after) later)
    (existed : db entry.address ≠ none ∨ entry.previousExists) (ends : entry.Ends) :
    ∀ last ∈ entry :: after, last.address = entry.address → last.existing →
      db.floor entry.address < last.incarnation := by
  obtain ⟨mid, called, rest⟩ := answers_cons.mp answers
  have renumbers := lifetime_renumbers called
  intro last member same existing
  obtain rfl | inside := List.mem_cons.mp member
  · exact renumbers.wiped existing ends
  · have live := (answers_entry rest inside).2.2 existing
    rw [same] at live
    exact (renumbers.ended existed ends).trans_le live

/-- Two live entries of an address with an ended lifetime between them. -/
theorem answers_separate {first : Lifetime} {middle : List Lifetime} {last : Lifetime}
    (answers : db.Answers (first :: middle ++ last :: after) later)
    (same : last.address = first.address) (existing : first.existing) (lastExisting : last.existing)
    (between : ∃ entry ∈ middle ++ [last], entry.address = first.address ∧ entry.Ends) :
    first.incarnation < last.incarnation := by
  obtain ⟨entry, member, owner, ends⟩ := between
  obtain ⟨left, right, split⟩ := List.append_of_mem member
  have whole : first :: middle ++ last :: after = [first] ++ left ++ (entry :: (right ++ after)) := by
    have := congrArg (fun list => first :: (list ++ after)) split
    simpa using this
  rw [whole] at answers
  obtain ⟨mid, front, back⟩ := answers_append.mp answers
  obtain ⟨start, called, skipped⟩ := answers_cons.mp front
  have present : start first.address ≠ none := by
    obtain ⟨_, _, ⟨_, _, gone, _⟩ | ⟨_, rfl⟩⟩ := lifetime_eq_ok called
    · simp [existing] at gone
    · simp
  have rises := answers_rises skipped first.address
  have reached : last ∈ entry :: (right ++ after) := by
    have tail : (middle ++ [last]).getLast? = (left ++ entry :: right).getLast? := by rw [split]
    rw [List.getLast?_append_of_ne_nil _ (by simp), List.getLast?_append_of_ne_nil _ (by simp)] at tail
    have inside : last ∈ entry :: right := List.mem_of_getLast? (by simpa using tail.symm)
    simp only [List.mem_cons, List.mem_append] at inside ⊢
    tauto
  have above := answers_ended back (.inl (owner.symm ▸ rises.present present)) ends last reached
    (same.trans owner.symm) lastExisting
  calc first.incarnation = start.floor first.address := (lifetime_renumbers called).floor.symm
    _ ≤ mid.floor first.address := rises.floor
    _ < last.incarnation := by rwa [owner] at above

/-- The row of an address is that of its latest entry. -/
theorem answers_row (answers : Journal.empty.Answers history later) (address : Text) :
    (later address = none → ∀ entry ∈ history, entry.address = address →
      entry.previousExists = false ∧ entry.existing = false) ∧
    ∀ row, later address = some row → ∃ before entry after, history = before ++ entry :: after ∧
      entry.address = address ∧ entry.existing = row.existsNow ∧
      entry.incarnation = row.incarnation ∧ ∀ other ∈ after, other.address ≠ address := by
  induction history using List.reverseRecOn generalizing later with
  | nil =>
      rw [answers_nil.mp answers]
      simp [Journal.empty]
  | append_singleton history entry ih =>
      obtain ⟨mid, front, last⟩ := answers_append.mp answers
      simp only [answers_cons, answers_nil, exists_eq_right'] at last
      obtain ⟨absent, latest⟩ := ih front
      by_cases owner : address = entry.address
      · subst owner
        obtain ⟨_, _, ⟨missing, before, gone, rfl⟩ | ⟨_, rfl⟩⟩ := lifetime_eq_ok last
        · refine ⟨?_, by simp [missing]⟩
          intro _ other member same
          obtain inside | rfl := by simpa using member
          · exact absent missing other inside same
          · exact ⟨before, gone⟩
        · refine ⟨by simp, ?_⟩
          intro row found
          simp only [Function.update_self, Option.some.injEq] at found
          subst found
          exact ⟨history, entry, [], by simp⟩
      · rw [lifetime_frame last owner]
        refine ⟨?_, ?_⟩
        · intro missing other member same
          obtain inside | rfl := by simpa using member
          · exact absent missing other inside same
          · exact absurd same.symm owner
        · intro row found
          obtain ⟨before, found, after, rfl, facts⟩ := latest row found
          refine ⟨before, found, after ++ [entry], by simp, facts.1, facts.2.1, facts.2.2.1, ?_⟩
          intro other member
          obtain inside | rfl := by simpa using member
          · exact facts.2.2.2 other inside
          · exact fun same => owner same.symm

/-- A storage write is numbered by the latest entry of its account, which is
live, or by zero while the journal has no lifetime of the account. -/
theorem storageIncarnation_eq_ok (answers : Journal.empty.Answers history later)
    (numbered : storageIncarnation later address = .ok incarnation) :
    (incarnation = 0 ∧ ∀ entry ∈ history, entry.address = address →
      entry.previousExists = false ∧ entry.existing = false) ∨
    ∃ before entry after, history = before ++ entry :: after ∧ entry.address = address ∧
      entry.existing ∧ entry.incarnation = incarnation ∧ ∀ other ∈ after, other.address ≠ address := by
  obtain ⟨absent, latest⟩ := answers_row answers address
  unfold storageIncarnation at numbered
  cases found : later address with
  | none =>
      rw [found] at numbered
      cases numbered
      exact .inl ⟨rfl, absent found⟩
  | some row =>
      rw [found] at numbered
      dsimp only at numbered
      split at numbered
      · rename_i live
        cases numbered
        obtain ⟨before, entry, after, split, owner, existing, same, rest⟩ := latest row found
        exact .inr ⟨before, entry, after, split, owner, existing.trans live, same, rest⟩
      · exact absurd numbered (bail_ne_ok _ _)

/-- Incarnations of an address never decrease, rise over every ended lifetime,
and rise above the zero of genesis once a genesis account is gone or wiped, so
that no two lifetimes of an address have a storage key in common. -/
theorem incarnations_isolate {calls : List LifetimeCall}
    (ran : lifetimes Journal.empty calls = .ok (history, final)) :
    history.map Lifetime.toLifetimeCall = calls ∧
    history.Pairwise (fun first second => first.address = second.address →
      first.incarnation ≤ second.incarnation) ∧
    (∀ before first middle last after, history = before ++ (first :: middle ++ last :: after) →
      last.address = first.address → first.existing → last.existing →
      (∃ entry ∈ middle ++ [last], entry.address = first.address ∧ entry.Ends) →
      first.incarnation < last.incarnation ∧ Apart first.incarnation last.incarnation) ∧
    (∀ before entry after, history = before ++ entry :: after → entry.previousExists → entry.Ends →
      ∀ last ∈ entry :: after, last.address = entry.address → last.existing →
        0 < last.incarnation ∧ Apart 0 last.incarnation) ∧
    ∀ address incarnation, storageIncarnation final address = .ok incarnation →
      (incarnation = 0 ∧ ∀ entry ∈ history, entry.address = address →
        entry.previousExists = false ∧ entry.existing = false) ∨
      ∃ before entry after, history = before ++ entry :: after ∧ entry.address = address ∧
        entry.existing ∧ entry.incarnation = incarnation ∧
        ∀ other ∈ after, other.address ≠ address := by
  obtain ⟨called, answers⟩ := lifetimes_answers ran
  refine ⟨called, answers_pairwise answers, ?_, ?_, fun _ _ => storageIncarnation_eq_ok answers⟩
  · intro before first middle last after split same existing lastExisting between
    have bound := (answers_entry answers (by simp [split] : last ∈ history)).1
    rw [split] at answers
    obtain ⟨mid, _, answers⟩ := answers_append.mp answers
    have less := answers_separate answers same existing lastExisting between
    exact ⟨less, apart_of_lt less bound⟩
  · intro before entry after split existed ends last member same existing
    have bound := (answers_entry answers (split ▸ List.mem_append_right before member)).1
    rw [split] at answers
    obtain ⟨mid, _, answers⟩ := answers_append.mp answers
    have less := Nat.lt_of_le_of_lt (Nat.zero_le _)
      (answers_ended answers (.inr existed) ends last member same existing)
    exact ⟨less, apart_of_lt less bound⟩

/-- A genesis account is destroyed, recreated and wiped in place. -/
def recreated : List Lifetime :=
  [⟨⟨['a'], true, false, true⟩, 0⟩, ⟨⟨['a'], false, true, false⟩, 1⟩, ⟨⟨['a'], true, true, true⟩, 2⟩]

theorem incarnations_isolate_recreated :
    ∃ final, lifetimes Journal.empty (recreated.map Lifetime.toLifetimeCall) = .ok (recreated, final) ∧
      Apart 1 2 ∧ Apart 0 1 := by
  have runs : ∃ final, lifetimes Journal.empty (recreated.map Lifetime.toLifetimeCall) =
      .ok (recreated, final) := ⟨_, rfl⟩
  obtain ⟨final, ran⟩ := runs
  obtain ⟨_, _, separate, genesis, _⟩ := incarnations_isolate ran
  have wiped := separate [_] _ [] _ [] rfl rfl rfl rfl ⟨_, .head _, rfl, .inr ⟨rfl, rfl, rfl⟩⟩
  have gone := genesis [] _ _ rfl rfl (.inl rfl) _ (.tail _ (.head _)) rfl rfl
  exact ⟨final, ran, wiped.2, gone.2⟩

end

end Fossil

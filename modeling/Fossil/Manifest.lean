import Fossil.Pieces
import Mathlib.Data.List.Chain

/-! What a head stands for.

A `Publication` is a package with the run built from it. A `Manifest` is the
publications of a chain in order, with the number of folds made so far; the folds
determine the levels, and both determine the head up to its parent. Publishing
and compacting are two operations on manifests. -/

namespace Fossil

/-! The records of a package. -/

def accountRecord (event : AccountEvent) : Record :=
  ⟨accountKey event.address, event.block, accountValue event⟩

def storageRecord (event : StorageEvent) : Record :=
  ⟨storageKey event.address event.incarnation event.slot, event.block, event.value.bytes⟩

def codeRecord (blob : CodeBlob) : Record := ⟨codeKey blob.codeHash, blob.firstSeenBlock, blob.bytes⟩

/-- Every event of a package as a record. -/
def eventRecords (segment : Segment) : List Record :=
  segment.accounts.map accountRecord ++ segment.storage.map storageRecord ++ segment.code.map codeRecord

/-- Staging has added these records, all within the interval. -/
structure Staged.Adds (first last : UInt64) (before : Staged) (added : List Record) (after : Staged) :
    Prop where
  records : after.records = before.records ++ added
  inside : ∀ record ∈ added, first ≤ record.block ∧ record.block ≤ last

section

variable {first last : UInt64}

theorem Staged.Adds.refl (staged : Staged) : Staged.Adds first last staged [] staged :=
  ⟨(List.append_nil _).symm, fun _ member => nomatch member⟩

theorem Staged.Adds.trans {start middle final : Staged} {early late : List Record}
    (one : Staged.Adds first last start early middle) (two : Staged.Adds first last middle late final) :
    Staged.Adds first last start (early ++ late) final := by
  refine ⟨by rw [two.records, one.records, List.append_assoc], ?_⟩
  intro record member
  rcases List.mem_append.mp member with old | new
  · exact one.inside record old
  · exact two.inside record new

theorem Staged.add_adds {staged next : Staged} {key : Bytes} {block : UInt64} {value : Bytes}
    (added : staged.add first last key block value = .ok next) :
    Staged.Adds first last staged [⟨key, block, value⟩] next := by
  unfold Staged.add at added
  rcases guard_eq_ok.mp added with ⟨inside, rest⟩
  rcases guard_eq_ok.mp rest with ⟨_, done⟩
  cases done
  exact ⟨rfl, fun record member => List.mem_singleton.mp member ▸ not_not.mp inside⟩

theorem stageAccounts_adds {staged final : Staged} {events : List AccountEvent}
    (done : stageAccounts first last staged events = .ok final) :
    Staged.Adds first last staged (events.map accountRecord) final := by
  induction events generalizing staged with
  | nil => cases done; exact .refl _
  | cons event rest ih =>
      rcases bind_eq_ok.mp done with ⟨next, added, more⟩
      exact (Staged.add_adds added).trans (ih more)

theorem stageStorage_adds {staged final : Staged} {events : List StorageEvent}
    (done : stageStorage first last staged events = .ok final) :
    Staged.Adds first last staged (events.map storageRecord) final := by
  induction events generalizing staged with
  | nil => cases done; exact .refl _
  | cons event rest ih =>
      rcases bind_eq_ok.mp done with ⟨next, added, more⟩
      exact (Staged.add_adds added).trans (ih more)

theorem stageCode_adds {env : Externals} {staged final : Staged} {blobs : List CodeBlob}
    (done : stageCode env first last staged blobs = .ok final) :
    Staged.Adds first last staged (blobs.map codeRecord) final ∧
      ∀ blob ∈ blobs, blob.bytes.length ≤ maxCode ∧ env.keccak256 blob.bytes = blob.codeHash := by
  induction blobs generalizing staged with
  | nil => cases done; exact ⟨.refl _, fun blob member => nomatch member⟩
  | cons blob rest ih =>
      rcases guard_eq_ok.mp done with ⟨valid, next⟩
      rcases bind_eq_ok.mp next with ⟨middle, added, more⟩
      rcases ih more with ⟨later, others⟩
      rw [not_or, not_lt, not_not] at valid
      refine ⟨(Staged.add_adds added).trans later, ?_⟩
      intro other member
      rcases List.mem_cons.mp member with rfl | inside
      · exact valid
      · exact others other inside

end

section

variable {env : Externals}

/-- The records of a package are its events, sorted, all within its blocks. -/
theorem packageRecords_eq_ok {package : Package} {first last : BlockMeta} {records : List Record}
    (front : package.segment.blocks.head? = some first)
    (back : package.segment.blocks.getLast? = some last)
    (done : packageRecords env package = .ok records) :
    records = sortRecords (eventRecords package.segment) ∧
      (∀ record ∈ eventRecords package.segment,
        first.number ≤ record.block ∧ record.block ≤ last.number) ∧
      ∀ blob ∈ package.segment.code,
        blob.bytes.length ≤ maxCode ∧ env.keccak256 blob.bytes = blob.codeHash := by
  unfold packageRecords at done
  simp only [front, back] at done
  rcases bind_eq_ok.mp done with ⟨accounts, accountsStaged, rest⟩
  rcases bind_eq_ok.mp rest with ⟨storage, storageStaged, rest⟩
  rcases bind_eq_ok.mp rest with ⟨code, codeStaged, finished⟩
  cases finished
  rcases stageCode_adds codeStaged with ⟨codeAdds, valid⟩
  have all := ((stageAccounts_adds accountsStaged).trans (stageStorage_adds storageStaged)).trans codeAdds
  refine ⟨?_, all.inside, valid⟩
  rw [all.records]
  rfl

/-- Along linked blocks the numbers go up by one. -/
theorem linked_span {blocks : List BlockMeta} {first last : BlockMeta} (links : linked blocks = true)
    (front : blocks.head? = some first) (back : blocks.getLast? = some last) :
    first.number.toNat + blocks.length = last.number.toNat + 1 := by
  induction blocks generalizing first with
  | nil => cases front
  | cons block rest ih =>
      cases front
      cases rest with
      | nil =>
          cases back
          rfl
      | cons next rest =>
          simp only [linked, Bool.and_eq_true, beq_iff_eq] at links
          have step := checkedSucc_eq_some.mp links.1.1
          have tail := ih links.2 rfl (by rwa [List.getLast?_cons_cons] at back)
          simp only [List.length_cons] at tail ⊢
          omega

theorem checkInterval_eq_ok {segment : Segment} {first last : BlockMeta}
    (checked : checkInterval segment first last = .ok ()) :
    segment.startBlock = first.number ∧ segment.endBlock = last.number ∧
      segment.blocks.length ≤ 1000 ∧ linked segment.blocks = true := by
  rcases guard_eq_ok.mp checked with ⟨passed, _⟩
  simp only [not_or, not_not, not_lt, Bool.not_eq_true, Bool.not_eq_false'] at passed
  exact ⟨passed.1, passed.2.1, passed.2.2.1, passed.2.2.2⟩

end

/-! Publications. -/

/-- A package that passed the checks of a publication, with the run built from it. -/
structure Publication (env : Externals) (accepts : Package → Prop) where
  package : Package
  first : BlockMeta
  last : BlockMeta
  piece : Piece env
  accepted : accepts package
  front : package.segment.blocks.head? = some first
  back : package.segment.blocks.getLast? = some last
  interval : checkInterval package.segment first last = .ok ()
  records : packageRecords env package = .ok piece.records
  expected : piece.expectedKeys = UInt64.ofNat (distinctKeys piece.records).length
  start : piece.run.start = first.number
  ends : piece.run.last = last.number
  weight : piece.run.weight = 1

section

variable {env : Externals} {accepts : Package → Prop}

namespace Publication

/-- The package of a block-zero anchor. -/
def Begins (publication : Publication env accepts) : Prop :=
  publication.package.mode = .anchor ∧ publication.first.number = 0 ∧
    publication.first.hash = publication.package.segment.genesisHash ∧
    publication.first.parentHash = Fixed.zero

/-- The next package of the same chain. -/
structure Continues (previous next : Publication env accepts) : Prop where
  chainId : previous.package.segment.chainId = next.package.segment.chainId
  genesis : previous.package.segment.genesisHash = next.package.segment.genesisHash
  number : checkedSucc previous.last.number = some next.first.number
  parent : next.first.parentHash = previous.last.hash

theorem eq_of_package {left right : Publication env accepts} (same : left.package = right.package) :
    left = right := by
  have first : left.first = right.first := by
    apply Option.some.inj
    rw [← left.front, ← right.front, same]
  have last : left.last = right.last := by
    apply Option.some.inj
    rw [← left.back, ← right.back, same]
  have records : left.piece.records = right.piece.records := by
    apply Except.ok.inj
    rw [← left.records, ← right.records, same]
  have piece : left.piece = right.piece := by
    apply Piece.eq_of records
    · rw [left.expected, right.expected, records]
    · rw [left.start, right.start, first]
    · rw [left.ends, right.ends, last]
    · rw [left.weight, right.weight]
  rcases left with ⟨package₁, first₁, last₁, piece₁, _⟩
  rcases right with ⟨package₂, first₂, last₂, piece₂, _⟩
  simp only at same first last piece
  subst same first last piece
  rfl

end Publication

/-- A finished write of a checked package is a publication. -/
theorem exists_publication {package : Package} {first last : BlockMeta} {records : List Record}
    {built : BuiltRun} {stored : List (Key × Bytes)} (accepted : accepts package)
    (front : package.segment.blocks.head? = some first)
    (back : package.segment.blocks.getLast? = some last)
    (interval : checkInterval package.segment first last = .ok ())
    (read : packageRecords env package = .ok records)
    (build : buildRun env.toPrimitives records (UInt64.ofNat (distinctKeys records).length) =
      .ok (built, stored)) :
    ∃ publication : Publication env accepts, publication.package = package ∧
      publication.first = first ∧ publication.last = last ∧
      publication.piece.run = newRun first.number last.number 1 built ∧
      publication.piece.stored = stored := by
  rcases packageRecords_eq_ok front back read with ⟨sorted, inside, _⟩
  have span := linked_span (checkInterval_eq_ok interval).2.2.2 front back
  have nonempty : 0 < package.segment.blocks.length := by
    rcases List.head?_eq_some_iff.mp front with ⟨rest, same⟩
    rw [same]
    exact Nat.succ_pos _
  have ordered : first.number ≤ last.number := UInt64.le_iff_toNat_le.mpr (by omega)
  have within : ∀ record ∈ records, first.number ≤ record.block ∧ record.block ≤ last.number := by
    intro record member
    rw [sorted] at member
    exact inside record ((sortRecords_perm _).mem_iff.mp member)
  let piece : Piece env := ⟨newRun first.number last.number 1 built, records,
    UInt64.ofNat (distinctKeys records).length, built, stored, build, rfl, ordered, within⟩
  exact ⟨⟨package, first, last, piece, accepted, front, back, interval, read, rfl, rfl, rfl, rfl⟩,
    rfl, rfl, rfl, rfl, rfl⟩

theorem Publication.tiled (publication : Publication env accepts) {first : Nat}
    (start : publication.first.number.toNat = first) :
    Tiled first [publication.piece.run] (publication.last.number.toNat + 1) := by
  refine ⟨by rw [publication.start, start], publication.piece.ordered, ?_⟩
  rw [publication.ends]
  rfl

/-- The runs of a chain of publications follow one another. -/
theorem tiled_of_chain {earlier : List (Publication env accepts)} {last : Publication env accepts}
    (chain : List.IsChain Publication.Continues (earlier ++ [last]))
    (begins : ∀ first, (earlier ++ [last]).head? = some first → first.first.number = 0) :
    Tiled 0 ((earlier ++ [last]).map (fun publication => publication.piece.run))
      (last.last.number.toNat + 1) := by
  induction earlier using List.reverseRecOn generalizing last with
  | nil => exact last.tiled (by rw [begins last rfl]; rfl)
  | append_singleton earlier middle ih =>
      rcases List.isChain_append.mp chain with ⟨before, _, joins⟩
      have continues : Publication.Continues middle last := by
        apply joins
        · simp
        · simp
      have older := ih before (fun first found => begins first (by
        rw [List.head?_append, found]
        rfl))
      rw [List.map_append, tiled_append]
      exact ⟨_, older, last.tiled (checkedSucc_eq_some.mp continues.number).symm⟩

/-! The folds of a list of pieces. -/

/-- The levels after a number of folds, each of four pieces in order. -/
inductive Folded (pieces : List (Piece env)) : Nat → List (Option (Piece env)) → Prop where
  | start : Folded pieces 0 []
  | fold {folds : Nat} {levels : List (Option (Piece env))} {planned : Plan (Piece env)}
      {merged : Piece env} (before : Folded pieces folds levels)
      (enough : l0Trigger * (folds + 1) ≤ pieces.length)
      (made : plan Piece.weight levels = .ok planned)
      (merges : Merges (planned.inputs (pieces.drop (l0Trigger * folds))) planned.weight merged) :
      Folded pieces (folds + 1) (planned.commit merged)

theorem Merges.weight {inputs : List (Piece env)} {weight : UInt64} {merged : Piece env}
    (merges : Merges inputs weight merged) : merged.weight = weight := by
  rw [Piece.weight, merges.run]
  rfl

namespace Folded

variable {pieces : List (Piece env)} {folds : Nat} {levels : List (Option (Piece env))}

theorem counts (folded : Folded pieces folds levels) :
    Counts Piece.weight 0 levels folds ∧ folds < 8 ^ maxLevels := by
  induction folded with
  | start => exact ⟨rfl, by decide⟩
  | fold _ _ made merges ih =>
      rcases plan_spec ih.1 ih.2 with ⟨_, fails⟩ | ⟨below, found, older, same, _, commits⟩
      · rw [fails] at made
        cases made
      · rw [same] at made
        cases made
        exact ⟨(commits _ merges.weight).1, below⟩

/-- Where a fold acts: its inputs lie together, and the merged piece replaces them. -/
theorem around (folded : Folded pieces folds levels) {planned : Plan (Piece env)}
    (made : plan Piece.weight levels = .ok planned) :
    ∃ older, (∀ l0, manifestRuns levels l0 = older ++ (planned.inputs l0 ++ l0.drop l0Trigger)) ∧
      ∀ inputs merged, Merges inputs planned.weight merged →
        ∀ l0, manifestRuns (planned.commit merged) l0 = older ++ merged :: l0 := by
  rcases folded.counts with ⟨counts, bound⟩
  rcases plan_spec counts bound with ⟨_, fails⟩ | ⟨_, found, older, same, splits, commits⟩
  · rw [fails] at made
    cases made
  · rw [same] at made
    cases made
    exact ⟨older, splits, fun inputs merged merges => (commits merged merges.weight).2⟩

theorem inputs_ne_nil {planned : Plan (Piece env)} (enough : l0Trigger * (folds + 1) ≤ pieces.length) :
    planned.inputs (pieces.drop (l0Trigger * folds)) ≠ [] := by
  intro nothing
  have none := (List.append_eq_nil_iff.mp nothing).2
  have length := congrArg List.length none
  simp only [List.length_take, List.length_drop, List.length_nil, l0Trigger] at length enough
  omega

theorem drop_drop_trigger (pieces : List (Piece env)) (folds : Nat) :
    (pieces.drop (l0Trigger * folds)).drop l0Trigger = pieces.drop (l0Trigger * (folds + 1)) := by
  rw [List.drop_drop, Nat.mul_succ]

/-- Folds do not change what the runs of the manifest cover. -/
theorem tiled (folded : Folded pieces folds levels) {bound : Nat}
    (tiled : Tiled 0 (pieces.map Piece.run) bound) :
    Tiled 0 ((manifestRuns levels (pieces.drop (l0Trigger * folds))).map Piece.run) bound := by
  induction folded with
  | start => simpa [manifestRuns] using tiled
  | @fold folds levels planned merged before enough made merges ih =>
      rcases before.around made with ⟨older, splits, commits⟩
      rw [commits _ _ merges, List.map_append, List.map_cons]
      rw [splits, List.map_append, List.map_append, drop_drop_trigger] at ih
      rcases tiled_append.mp ih with ⟨low, left, right⟩
      rcases tiled_append.mp right with ⟨high, inputs, newer⟩
      have whole := inputs.folded (by simpa using inputs_ne_nil enough) planned.weight merged.built
      rw [← merges.run] at whole
      exact tiled_append.mpr ⟨low, left, tiled_append.mpr ⟨high, whole, newer⟩⟩

/-- Folds lose no record and add none. -/
theorem records_perm (folded : Folded pieces folds levels) :
    ((manifestRuns levels (pieces.drop (l0Trigger * folds))).flatMap Piece.records).Perm
      (pieces.flatMap Piece.records) := by
  induction folded with
  | start => simp [manifestRuns]
  | fold before enough made merges ih =>
      rcases before.around made with ⟨older, splits, commits⟩
      rw [splits, drop_drop_trigger] at ih
      rw [commits _ _ merges]
      refine List.Perm.trans ?_ ih
      simp only [List.flatMap_append, List.flatMap_cons, merges.records]
      exact ((sortRecords_perm _).append_right _).append_left _

theorem bound (folded : Folded pieces folds levels) : l0Trigger * folds ≤ pieces.length := by
  cases folded with
  | start => exact Nat.zero_le _
  | fold _ enough => exact enough

/-- Later pieces do not matter for the folds already made. -/
theorem mono (folded : Folded pieces folds levels) {more : List (Piece env)} (grows : pieces <+: more) :
    Folded more folds levels := by
  induction folded with
  | start => exact .start
  | @fold folds levels planned merged before enough made merges ih =>
      rcases grows with ⟨rest, rfl⟩
      refine .fold ih (le_trans enough (by simp)) made ?_
      have inside : l0Trigger * folds ≤ pieces.length := by
        rw [Nat.mul_succ] at enough
        omega
      have four : l0Trigger ≤ (pieces.drop (l0Trigger * folds)).length := by
        rw [List.length_drop]
        rw [Nat.mul_succ] at enough
        omega
      rw [List.drop_append_of_le_length inside, Plan.inputs, List.take_append_of_le_length four]
      exact merges

theorem unique (folded : Folded pieces folds levels) {other : List (Option (Piece env))}
    (again : Folded pieces folds other) : levels = other := by
  induction folded generalizing other with
  | start => cases again; rfl
  | fold before enough made merges ih =>
      cases again with
      | fold before' enough' made' merges' =>
          have same := ih before'
          subst same
          rw [made] at made'
          cases made'
          rw [merges.unique merges']

end Folded

end

/-! Manifests. -/

/-- The publications of a chain, with the folds made of their pieces. -/
structure Manifest (env : Externals) (accepts : Package → Prop) where
  earlier : List (Publication env accepts)
  last : Publication env accepts
  folds : Nat
  levels : List (Option (Piece env))
  begins : ∀ first, (earlier ++ [last]).head? = some first → first.Begins
  chain : List.IsChain Publication.Continues (earlier ++ [last])
  folded : Folded ((earlier ++ [last]).map Publication.piece) folds levels
  backlog : earlier.length + 1 ≤ l0Trigger * folds + maxL0Backlog

namespace Manifest

variable {env : Externals} {accepts : Package → Prop}

def publications (manifest : Manifest env accepts) : List (Publication env accepts) :=
  manifest.earlier ++ [manifest.last]

def pieces (manifest : Manifest env accepts) : List (Piece env) :=
  manifest.publications.map Publication.piece

/-- The pieces not folded yet. -/
def l0 (manifest : Manifest env accepts) : List (Piece env) :=
  manifest.pieces.drop (l0Trigger * manifest.folds)

/-- All current pieces, oldest first. -/
def current (manifest : Manifest env accepts) : List (Piece env) :=
  manifestRuns manifest.levels manifest.l0

/-- The head that records a manifest. -/
def head (manifest : Manifest env accepts) (parent : Option ObjectRef) : Head where
  magic := headMagic
  chainId := manifest.last.package.segment.chainId
  genesis := manifest.last.package.segment.genesisHash
  number := manifest.last.last.number
  hash := manifest.last.last.hash
  stateRoot := manifest.last.last.stateRoot
  inputSha256 := manifest.last.package.inputSha256
  parent := parent
  l0 := manifest.l0.map Piece.run
  levels := manifest.levels.map (Option.map Piece.run)

variable (manifest : Manifest env accepts)

theorem pieces_length : manifest.pieces.length = manifest.earlier.length + 1 := by
  simp [pieces, publications]

theorem l0_length : manifest.l0.length = manifest.pieces.length - l0Trigger * manifest.folds := by
  simp [l0]

theorem l0_length_le : manifest.l0.length ≤ maxL0Backlog := by
  have := manifest.backlog
  rw [l0_length, pieces_length]
  omega

theorem folds_le : l0Trigger * manifest.folds ≤ manifest.pieces.length := manifest.folded.bound

theorem publications_tiled :
    Tiled 0 (manifest.pieces.map Piece.run) (manifest.last.last.number.toNat + 1) := by
  have tiled := tiled_of_chain manifest.chain (fun first found => (manifest.begins first found).2.1)
  rw [pieces, publications, List.map_map]
  exact tiled

theorem current_tiled :
    Tiled 0 (manifest.current.map Piece.run) (manifest.last.last.number.toNat + 1) :=
  manifest.folded.tiled manifest.publications_tiled

theorem manifestRuns_map {α β : Type} (f : α → β) (levels : List (Option α)) (l0 : List α) :
    manifestRuns (levels.map (Option.map f)) (l0.map f) = (manifestRuns levels l0).map f := by
  unfold manifestRuns
  rw [← List.map_reverse, List.map_append, List.filterMap_map, List.map_filterMap]
  congr 2

theorem head_runs (parent : Option ObjectRef) :
    (manifest.head parent).runs = manifest.current.map Piece.run :=
  manifestRuns_map _ _ _

theorem weight_l0 : ∀ piece ∈ manifest.l0, piece.run.weight = 1 := by
  intro piece member
  rcases List.mem_map.mp (List.mem_of_mem_drop member) with ⟨publication, _, rfl⟩
  exact publication.weight

theorem counts : Counts Run.weight 0 (manifest.levels.map (Option.map Piece.run)) manifest.folds :=
  Counts.map (f := Piece.run) (fun _ => rfl) manifest.folded.counts.1

theorem levels_length : manifest.levels.length ≤ maxLevels :=
  manifest.folded.counts.1.length_le manifest.folded.counts.2

end Manifest

/-- Counting levels have valid weights. -/
theorem Counts.levelsValid {level folds : Nat} {slots : List (Option Run)}
    (counts : Counts Run.weight level slots folds) (bound : level + slots.length ≤ maxLevels) :
    (slots.zipIdx level).all (fun slot =>
      match slot.1 with
      | none => true
      | some run => levelWeightValid slot.2 run.weight) = true := by
  induction slots generalizing level folds with
  | nil => rfl
  | cons slot rest ih =>
      rcases counts with ⟨_, digit, empty, deeper⟩
      rw [List.length_cons] at bound
      rw [List.zipIdx_cons, List.all_cons, Bool.and_eq_true]
      refine ⟨?_, ih deeper (by omega)⟩
      cases slot with
      | none => rfl
      | some run =>
          have here : level < maxLevels := by omega
          have unitValue := unit_toNat here.le
          have positive : 0 < 4 * 8 ^ level := Nat.mul_pos (by decide) (Nat.pow_pos (by decide))
          have nonzero : folds % 8 ≠ 0 := fun zero => nomatch empty.mpr zero
          have weight : run.weight.toNat = folds % 8 * (4 * 8 ^ level) := digit
          simp only [levelWeightValid, Bool.decide_and, decide_not, Bool.and_eq_true,
            Bool.not_eq_true', decide_eq_false_iff_not, decide_eq_true_eq]
          refine ⟨?_, ?_, ?_⟩
          · intro zero
            rw [zero] at weight
            exact Nat.mul_ne_zero nonzero positive.ne' weight.symm
          · apply UInt64.toNat_inj.mp
            rw [UInt64.toNat_mod, weight, unitValue]
            exact Nat.mul_mod_left _ _
          · rw [UInt64.lt_iff_toNat_lt, ← unit_succ, unit_toNat here, weight, pow_succ]
            have small := Nat.mod_lt folds (show 0 < 8 by decide)
            calc folds % 8 * (4 * 8 ^ level) < 8 * (4 * 8 ^ level) :=
                  Nat.mul_lt_mul_of_pos_right small positive
              _ = 4 * (8 ^ level * 8) := by ring

namespace Manifest

variable {env : Externals} {accepts : Package → Prop} (manifest : Manifest env accepts)

theorem current_ne_nil : manifest.current ≠ [] := by
  intro nothing
  have covers := manifest.current_tiled
  rw [nothing] at covers
  have : 0 = manifest.last.last.number.toNat + 1 := covers
  omega

/-- The head of a manifest passes every check of decoding. -/
theorem head_valid (parent : Option ObjectRef) :
    (manifest.head parent).validate env.toPrimitives = .ok (manifest.head parent) := by
  have shape : ¬ ((manifest.head parent).magic ≠ headMagic ∨
      (manifest.head parent).l0.length > maxL0Backlog ∨
      (manifest.head parent).levels.length > maxLevels) := by
    have short := manifest.l0_length_le
    have shallow := manifest.levels_length
    simp only [head, List.length_map]
    simp only [ne_eq, not_true_eq_false, false_or, not_or, not_lt, gt_iff_lt]
    exact ⟨short, shallow⟩
  have light : ¬ ((manifest.head parent).l0.any (fun run => run.weight ≠ 1)) = true := by
    rw [List.any_eq_true]
    rintro ⟨run, member, heavy⟩
    rcases List.mem_map.mp member with ⟨piece, inside, rfl⟩
    rw [manifest.weight_l0 piece inside] at heavy
    cases heavy
  have weights : levelsValid (manifest.head parent).levels = true := by
    apply manifest.counts.levelsValid
    rw [Nat.zero_add, List.length_map]
    exact manifest.levels_length
  have covered : checkRuns env.toPrimitives (manifest.head parent).runs 0 =
      .ok (UInt64.ofNat (manifest.last.last.number.toNat + 1)) := by
    rw [head_runs]
    exact checkRuns_tiled manifest.current_tiled
  have ends : UInt64.ofNat (manifest.last.last.number.toNat + 1) = (manifest.head parent).number + 1 := by
    rw [UInt64.ofNat_add, UInt64.ofNat_toNat]
    rfl
  have complete : ¬ ((manifest.head parent).runs.length = 0 ∨
      UInt64.ofNat (manifest.last.last.number.toNat + 1) ≠ (manifest.head parent).number + 1) := by
    rw [ends, head_runs]
    simp [manifest.current_ne_nil]
  unfold Head.validate
  rw [if_neg shape, if_neg light, weights, Bool.not_true, if_neg Bool.false_ne_true, covered, ok_bind,
    if_neg complete]

/-! The two operations. -/

/-- The first publication of a chain. -/
def single (publication : Publication env accepts) (begins : publication.Begins) :
    Manifest env accepts where
  earlier := []
  last := publication
  folds := 0
  levels := []
  begins := by
    intro first found
    cases found
    exact begins
  chain := .singleton _
  folded := .start
  backlog := Nat.le_add_left 1 15

def append (publication : Publication env accepts) (continues : manifest.last.Continues publication)
    (room : manifest.l0.length < maxL0Backlog) : Manifest env accepts where
  earlier := manifest.publications
  last := publication
  folds := manifest.folds
  levels := manifest.levels
  begins := by
    intro first found
    apply manifest.begins first
    rw [publications, List.head?_append, List.head?_append] at found
    rw [List.head?_append]
    cases front : manifest.earlier.head? <;> simp_all
  chain := by
    apply List.isChain_append.mpr
    refine ⟨manifest.chain, .singleton _, ?_⟩
    intro previous isLast next isNext
    simp only [publications, List.getLast?_append, List.getLast?_singleton, Option.some_or,
      Option.mem_def, Option.some.injEq] at isLast
    simp only [List.head?_cons, Option.mem_def, Option.some.injEq] at isNext
    subst isLast isNext
    exact continues
  folded := by
    apply manifest.folded.mono
    exact (List.prefix_append manifest.publications [publication]).map Publication.piece
  backlog := by
    have length := manifest.pieces_length
    rw [l0_length] at room
    simp only [publications, List.length_append, List.length_singleton]
    omega

def fold {planned : Plan (Piece env)} {merged : Piece env} (enough : l0Trigger ≤ manifest.l0.length)
    (made : plan Piece.weight manifest.levels = .ok planned)
    (merges : Merges (planned.inputs manifest.l0) planned.weight merged) : Manifest env accepts where
  earlier := manifest.earlier
  last := manifest.last
  folds := manifest.folds + 1
  levels := planned.commit merged
  begins := manifest.begins
  chain := manifest.chain
  folded := by
    refine .fold manifest.folded ?_ made merges
    rw [l0_length] at enough
    have inside := manifest.folds_le
    rw [Nat.mul_succ]
    have : manifest.pieces.length = ((manifest.earlier ++ [manifest.last]).map Publication.piece).length := rfl
    omega
  backlog := by
    have := manifest.backlog
    rw [Nat.mul_succ]
    omega

section

variable {manifest} {publication : Publication env accepts} {parent parent' : Option ObjectRef}

theorem l0_append (continues : manifest.last.Continues publication)
    (room : manifest.l0.length < maxL0Backlog) :
    (manifest.append publication continues room).l0 = manifest.l0 ++ [publication.piece] := by
  have inside := manifest.folds_le
  show ((manifest.publications ++ [publication]).map Publication.piece).drop _ = _
  rw [List.map_append]
  exact List.drop_append_of_le_length inside

/-- Publication builds the head of the appended manifest. -/
theorem head_append (continues : manifest.last.Continues publication)
    (room : manifest.l0.length < maxL0Backlog) :
    { appendHead publication.package publication.first publication.last publication.piece.run
        (some (manifest.head parent')) with parent := parent } =
      (manifest.append publication continues room).head parent := by
  unfold head appendHead
  simp only [l0_append, List.map_append, List.map_singleton]
  congr 1
  · exact continues.chainId
  · exact continues.genesis

theorem head_single (begins : publication.Begins) :
    { appendHead publication.package publication.first publication.last publication.piece.run none with
        parent := none } = (single publication begins).head none := rfl

theorem trimLevels_map {α β : Type} (f : α → β) (levels : List (Option α)) :
    trimLevels (levels.map (Option.map f)) = (trimLevels levels).map (Option.map f) := by
  have same : (Option.isNone ∘ Option.map f) = (Option.isNone : Option α → Bool) := by
    funext slot
    cases slot <;> rfl
  unfold trimLevels
  rw [← List.map_reverse, List.dropWhile_map, same, List.map_reverse]

theorem commit_map {α β : Type} (f : α → β) (planned : Plan α) (merged : α) :
    (planned.map f).commit (f merged) = (planned.commit merged).map (Option.map f) := by
  unfold Plan.commit
  rw [← trimLevels_map, List.map_set]
  rfl

theorem inputs_map {α β : Type} (f : α → β) (planned : Plan α) (l0 : List α) :
    (planned.map f).inputs (l0.map f) = (planned.inputs l0).map f := by
  unfold Plan.inputs
  rw [List.map_append, List.map_reverse, List.map_take]
  rfl

theorem l0_fold {planned : Plan (Piece env)} {merged : Piece env}
    (enough : l0Trigger ≤ manifest.l0.length)
    (made : plan Piece.weight manifest.levels = .ok planned)
    (merges : Merges (planned.inputs manifest.l0) planned.weight merged) :
    (manifest.fold enough made merges).l0 = manifest.l0.drop l0Trigger :=
  (Folded.drop_drop_trigger _ _).symm

/-- Compaction builds the head of the folded manifest. -/
theorem head_fold {planned : Plan (Piece env)} {merged : Piece env}
    (enough : l0Trigger ≤ manifest.l0.length)
    (made : plan Piece.weight manifest.levels = .ok planned)
    (merges : Merges (planned.inputs manifest.l0) planned.weight merged) :
    { manifest.head parent' with
        l0 := (manifest.head parent').l0.drop l0Trigger
        levels := (planned.map Piece.run).commit merged.run
        parent := parent } = (manifest.fold enough made merges).head parent := by
  unfold head
  simp only [l0_fold, commit_map, List.map_drop]
  rfl

end

end Manifest

end Fossil

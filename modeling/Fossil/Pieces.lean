import Fossil.Levels
import Fossil.Sizing
import Fossil.Writing

/-! Runs of a manifest with what they hold.

A `Piece` is a run together with the records it was built from; its proofs say
that the run describes exactly that build. `Tiled` is the coverage of a range of
blocks by runs that follow one another. -/

namespace Fossil

/-- A run, the records it was built from and everything the build stores. -/
structure Piece (env : Externals) where
  run : Run
  records : List Record
  expectedKeys : UInt64
  built : BuiltRun
  stored : List (Key × Bytes)
  build : buildRun env.toPrimitives records expectedKeys = .ok (built, stored)
  shape : run = newRun run.start run.last run.weight built
  ordered : run.start ≤ run.last
  inside : ∀ record ∈ records, run.start ≤ record.block ∧ record.block ≤ run.last

section

variable {env : Externals}

namespace Piece

def weight (piece : Piece env) : UInt64 := piece.run.weight

/-- A piece is determined by its records, the estimate it was built for and the
interval and weight of its run. -/
theorem eq_of {left right : Piece env} (records : left.records = right.records)
    (expected : left.expectedKeys = right.expectedKeys) (start : left.run.start = right.run.start)
    (last : left.run.last = right.run.last) (weight : left.run.weight = right.run.weight) :
    left = right := by
  have builds := left.build
  rw [records, expected, right.build] at builds
  have same := Except.ok.inj builds
  have run : left.run = right.run := by
    rw [left.shape, right.shape, start, last, weight, (Prod.mk.inj same).1]
  rcases left with ⟨run₁, records₁, keys₁, built₁, stored₁, _, _, _, _⟩
  rcases right with ⟨run₂, records₂, keys₂, built₂, stored₂, _, _, _, _⟩
  rcases Prod.mk.inj same with ⟨sameBuilt, sameStored⟩
  simp only at records expected run sameBuilt sameStored
  subst records expected run sameBuilt sameStored
  rfl

theorem sorted (piece : Piece env) : StrictlySorted Record.version piece.records := by
  rcases buildRun_tree piece.build with ⟨_, _, stores, _⟩
  exact stores.sorted

theorem root_eq (piece : Piece env) : piece.run.root = piece.built.root := by
  rw [piece.shape]
  rfl

theorem input (piece : Piece env) :
    piece.run.input = .ok (piece.built.root, piece.built.rootBytes) := by
  rw [piece.shape]
  simp [Run.input, newRun]

theorem immutable (piece : Piece env) : ∀ object ∈ piece.stored, object.1.immutable :=
  buildRun_immutable piece.build

theorem runStored {Owner : Type} {state : System Owner} (piece : Piece env)
    (durable : AllStored piece.stored state) :
    RunStored env.toPrimitives state (piece.built.root, piece.built.rootBytes) piece.records :=
  buildRun_stored piece.build durable

theorem root_addressed (piece : Piece env) :
    piece.built.rootBytes.length = piece.built.root.length.toNat ∧
      env.sha256 piece.built.rootBytes = piece.built.root.digest := by
  rcases buildRun_tree piece.build with ⟨tree, _, _, root, bytes, _⟩
  have made := (verifyObject_makeObject tree.made).1
  rcases makeObject_eq_ok.mp (addressed_of_makeObject tree.made) with ⟨small, same⟩
  rw [root, bytes]
  constructor
  · conv => rhs; rw [same]
    exact (toNat_ofNat_of_lt small).symm
  · exact ((addressed_of_makeObject tree.made).digest).symm

end Piece

theorem Piece.shards_eq (piece : Piece env) : piece.run.shards = shardCount piece.expectedKeys := by
  rcases buildRun_eq_ok.mp piece.build with ⟨empty, objects, root, made, _, same, _⟩
  have facts := @SummaryBuilder.new_eq_ok env.toPrimitives _ _ made
  rw [piece.shape]
  show piece.built.shards = _
  rw [same]
  exact (SummaryBuilder.addAll_shards empty _).trans facts.1

theorem Piece.keys_eq (piece : Piece env) :
    piece.run.keys = UInt64.ofNat (distinctKeys piece.records).length := by
  rcases buildRun_eq_ok.mp piece.build with ⟨empty, objects, root, made, _, same, _⟩
  have facts := @SummaryBuilder.new_eq_ok env.toPrimitives _ _ made
  rw [piece.shape]
  show piece.built.keys = _
  rw [same]
  show (empty.addAll env.toPrimitives (distinctKeys piece.records)).keys = _
  rw [SummaryBuilder.addAll_keys, facts.2.1, UInt64.zero_add]

theorem Piece.shards_valid (piece : Piece env) : isPowerOfTwo piece.run.shards = true := by
  rcases buildRun_eq_ok.mp piece.build with ⟨empty, objects, root, made, _, _, _⟩
  have facts := @SummaryBuilder.new_eq_ok env.toPrimitives _ _ made
  rw [piece.shards_eq]
  apply isPowerOfTwo_shardCount
  rw [← facts.1]
  exact facts.2.2.2.nonzero

/-! Coverage of a range of blocks. -/

/-- The runs cover the blocks from `first` up to and excluding `bound`, each run
starting right after the one before it. -/
def Tiled : Nat → List Run → Nat → Prop
  | first, [], bound => first = bound
  | first, run :: rest, bound =>
      run.start.toNat = first ∧ run.start ≤ run.last ∧ Tiled (run.last.toNat + 1) rest bound

theorem tiled_append {first bound : Nat} {older newer : List Run} :
    Tiled first (older ++ newer) bound ↔ ∃ middle, Tiled first older middle ∧ Tiled middle newer bound := by
  induction older generalizing first with
  | nil => exact ⟨fun tiled => ⟨first, rfl, tiled⟩, fun ⟨_, same, tiled⟩ => by rw [same]; exact tiled⟩
  | cons run rest ih =>
      constructor
      · intro ⟨start, ordered, tiled⟩
        rcases ih.mp tiled with ⟨middle, left, right⟩
        exact ⟨middle, ⟨start, ordered, left⟩, right⟩
      · intro ⟨middle, ⟨start, ordered, left⟩, right⟩
        exact ⟨start, ordered, ih.mpr ⟨middle, left, right⟩⟩

theorem Tiled.within {first bound : Nat} {runs : List Run} (tiled : Tiled first runs bound) :
    first ≤ bound ∧ ∀ run ∈ runs, first ≤ run.start.toNat ∧ run.start.toNat ≤ run.last.toNat ∧
      run.last.toNat < bound := by
  induction runs generalizing first with
  | nil => exact ⟨Nat.le_of_eq tiled, fun run member => nomatch member⟩
  | cons run rest ih =>
      rcases tiled with ⟨start, ordered, later⟩
      rcases ih later with ⟨reaches, others⟩
      have ordered' : run.start.toNat ≤ run.last.toNat := UInt64.le_iff_toNat_le.mp ordered
      refine ⟨by omega, ?_⟩
      intro other member
      rcases List.mem_cons.mp member with rfl | inside
      · exact ⟨by omega, ordered', by omega⟩
      · have := others other inside
        exact ⟨by omega, this.2.1, this.2.2⟩

theorem Tiled.covers {first bound : Nat} {runs : List Run} (tiled : Tiled first runs bound) {block : Nat}
    (above : first ≤ block) (below : block < bound) :
    ∃ run ∈ runs, run.start.toNat ≤ block ∧ block ≤ run.last.toNat := by
  induction runs generalizing first with
  | nil =>
      have : first = bound := tiled
      omega
  | cons run rest ih =>
      rcases tiled with ⟨start, _, later⟩
      by_cases here : block ≤ run.last.toNat
      · exact ⟨run, List.mem_cons_self, by omega, here⟩
      · rcases ih later (by omega) with ⟨other, member, covers⟩
        exact ⟨other, List.mem_cons_of_mem _ member, covers⟩

theorem Tiled.pairwise {first bound : Nat} {runs : List Run} (tiled : Tiled first runs bound) :
    runs.Pairwise (fun older newer => older.last < newer.start) := by
  induction runs generalizing first with
  | nil => exact .nil
  | cons run rest ih =>
      rcases tiled with ⟨_, _, later⟩
      refine .cons (fun other member => ?_) (ih later)
      exact UInt64.lt_iff_toNat_lt.mpr ((later.within.2 other member).1)

/-- Different runs cover different blocks. -/
theorem Tiled.apart {first bound : Nat} {runs : List Run} (tiled : Tiled first runs bound) {left right : Run}
    (inLeft : left ∈ runs) (inRight : right ∈ runs) (differ : left ≠ right) :
    left.last < right.start ∨ right.last < left.start := by
  have symmetric : Std.Symm (fun left right : Run => left.last < right.start ∨ right.last < left.start) :=
    ⟨fun _ _ => Or.symm⟩
  have pairwise : runs.Pairwise (fun left right => left.last < right.start ∨ right.last < left.start) :=
    tiled.pairwise.imp .inl
  exact pairwise.forall inLeft inRight differ

theorem Tiled.contiguous {first bound : Nat} {runs : List Run} (tiled : Tiled first runs bound) :
    contiguous runs = true := by
  induction runs generalizing first with
  | nil => rfl
  | cons run rest ih =>
      rcases tiled with ⟨_, _, later⟩
      cases rest with
      | nil => rfl
      | cons next rest =>
          have follows : checkedSucc run.last = some next.start := checkedSucc_eq_some.mpr later.1.symm
          simp only [Fossil.contiguous, follows, beq_self_eq_true, Bool.true_and]
          exact ih later

theorem Tiled.ends {first bound : Nat} {run : Run} {rest : List Run}
    (tiled : Tiled first (run :: rest) bound) :
    (((run :: rest).getLast?.map Run.last).getD 0).toNat + 1 = bound := by
  induction rest generalizing first run with
  | nil => exact tiled.2.2
  | cons next rest ih =>
      rw [List.getLast?_cons_cons]
      exact ih tiled.2.2

/-- The run of a fold covers what its inputs covered. -/
theorem Tiled.folded {first bound : Nat} {inputs : List Run} (tiled : Tiled first inputs bound)
    (nonempty : inputs ≠ []) (weight : UInt64) (built : BuiltRun) :
    Tiled first [foldedRun inputs weight built] bound := by
  cases inputs with
  | nil => exact absurd rfl nonempty
  | cons run rest =>
      have last := tiled.ends
      have within := tiled.within.2 run List.mem_cons_self
      refine ⟨tiled.1, ?_, last⟩
      apply UInt64.le_iff_toNat_le.mpr
      show run.start.toNat ≤ (((run :: rest).getLast?.map Run.last).getD 0).toNat
      omega

/-- Decoding accepts tiled runs of pieces. -/
theorem checkRuns_tiled {first bound : Nat} {pieces : List (Piece env)}
    (tiled : Tiled first (pieces.map Piece.run) bound) :
    checkRuns env.toPrimitives (pieces.map Piece.run) (UInt64.ofNat first) = .ok (UInt64.ofNat bound) := by
  induction pieces generalizing first with
  | nil =>
      rw [show first = bound from tiled]
      rfl
  | cons piece rest ih =>
      rcases tiled with ⟨start, ordered, later⟩
      have decoded : hexDecode piece.run.rootBytes = .ok piece.built.rootBytes := by
        rw [piece.shape]
        exact hexDecode_hexEncode _
      have begins : piece.run.start = UInt64.ofNat first := by
        rw [← start, UInt64.ofNat_toNat]
      have next : piece.run.last + 1 = UInt64.ofNat (piece.run.last.toNat + 1) := by
        rw [UInt64.ofNat_add, UInt64.ofNat_toNat]
        rfl
      have root := piece.root_addressed
      rw [← piece.root_eq] at root
      have rejected : ¬ (piece.run.start ≠ UInt64.ofNat first ∨ piece.run.start > piece.run.last ∨
          (!isPowerOfTwo piece.run.shards) = true ∨
          piece.built.rootBytes.length ≠ piece.run.root.length.toNat ∨
          env.sha256 piece.built.rootBytes ≠ piece.run.root.digest) := by
        simp only [piece.shards_valid, Bool.not_true, Bool.false_eq_true, false_or, root.1, root.2,
          ne_eq, not_true_eq_false, or_false, begins, gt_iff_lt, not_lt]
        exact begins ▸ ordered
      rw [List.map_cons, checkRuns, decoded, ok_bind, if_neg rejected, next]
      exact ih later

/-! What decoding admits. -/

/-- The largest block number there is. -/
def topBlock : UInt64 := 0xffffffffffffffff

/-- The runs are an exact partition of the blocks up to the head's number. -/
structure Partitions (head : Head) : Prop where
  nonempty : ∀ run ∈ head.runs, run.start ≤ run.last
  ascending : head.runs.Pairwise (fun older newer => older.last < newer.start)
  contiguous : head.runs.IsChain (fun older newer => older.last.toNat + 1 = newer.start.toNat)
  starts : ∃ first, head.runs.head? = some first ∧ first.start = 0
  ends : ∃ last, head.runs.getLast? = some last ∧ last.last = head.number
  covered : ∀ block ≤ head.number, ∃! run, run ∈ head.runs ∧ run.start ≤ block ∧ block ≤ run.last
  bounded : ∀ run ∈ head.runs, run.last ≤ head.number

theorem Tiled.isChain {first bound : Nat} {runs : List Run} (tiled : Tiled first runs bound) :
    runs.IsChain (fun older newer => older.last.toNat + 1 = newer.start.toNat) := by
  induction runs generalizing first with
  | nil => exact .nil
  | cons run rest ih =>
      rcases tiled with ⟨_, _, later⟩
      cases rest with
      | nil => exact .singleton _
      | cons next rest => exact .cons_cons later.1.symm (ih later)

/-- Two runs that cover a block are one. -/
theorem eq_of_covering {runs : List Run}
    (ascending : runs.Pairwise (fun older newer => older.last < newer.start)) {left right : Run}
    (inLeft : left ∈ runs) (inRight : right ∈ runs) {block : UInt64}
    (coversLeft : left.start ≤ block ∧ block ≤ left.last)
    (coversRight : right.start ≤ block ∧ block ≤ right.last) : left = right := by
  induction ascending with
  | nil => cases inLeft
  | @cons run rest above _ ih =>
      have apart : ∀ newer ∈ rest, newer.start ≤ block → block ≤ run.last → False := by
        intro newer member low high
        exact absurd (lt_of_le_of_lt high (above newer member)) (not_lt_of_ge low)
      rcases List.mem_cons.mp inLeft with rfl | newerLeft
      · rcases List.mem_cons.mp inRight with same | newerRight
        · exact same.symm
        · exact (apart right newerRight coversRight.1 coversLeft.2).elim
      · rcases List.mem_cons.mp inRight with rfl | newerRight
        · exact (apart left newerLeft coversLeft.1 coversRight.2).elim
        · exact ih newerLeft newerRight

theorem Tiled.partitions {head : Head} (tiled : Tiled 0 head.runs (head.number.toNat + 1)) :
    Partitions head where
  nonempty run member := UInt64.le_iff_toNat_le.mpr (tiled.within.2 run member).2.1
  ascending := tiled.pairwise
  contiguous := tiled.isChain
  starts := by
    cases list : head.runs with
    | nil =>
        rw [list] at tiled
        cases tiled
    | cons run rest =>
        rw [list] at tiled
        exact ⟨run, rfl, UInt64.toNat_inj.mp tiled.1⟩
  ends := by
    cases list : head.runs with
    | nil =>
        rw [list] at tiled
        cases tiled
    | cons run rest =>
        rw [list] at tiled
        have last := tiled.ends
        rw [List.getLast?_eq_some_getLast (List.cons_ne_nil run rest)] at last ⊢
        exact ⟨_, rfl, UInt64.toNat_inj.mp (Nat.succ.inj last)⟩
  covered block below := by
    rcases tiled.covers (Nat.zero_le _) (Nat.lt_succ_of_le (UInt64.le_iff_toNat_le.mp below)) with
      ⟨run, member, low, high⟩
    refine ⟨run, ⟨member, UInt64.le_iff_toNat_le.mpr low, UInt64.le_iff_toNat_le.mpr high⟩, ?_⟩
    intro other ⟨present, covers⟩
    exact eq_of_covering tiled.pairwise present member covers
      ⟨UInt64.le_iff_toNat_le.mpr low, UInt64.le_iff_toNat_le.mpr high⟩
  bounded run member := UInt64.le_iff_toNat_le.mpr (Nat.le_of_lt_succ (tiled.within.2 run member).2.2)

/-- The block after a run, unless the run ends at the last one there is. -/
theorem toNat_succ {last : UInt64} (below : last ≠ topBlock) : (last + 1).toNat = last.toNat + 1 := by
  have bound := last.toNat_lt
  have apart : last.toNat ≠ 2 ^ 64 - 1 := fun top => below (UInt64.toNat_inj.mp top)
  rw [UInt64.toNat_add]
  exact Nat.mod_eq_of_lt (by simp; omega)

/-- The walk over the runs computes in 64 bits; it is exact as long as only the last
run ends at the last block there is. -/
theorem tiled_of_checkRuns {primitives : Primitives} {runs : List Run} {start number : UInt64}
    (checked : checkRuns primitives runs start = .ok (number + 1)) (nonempty : runs ≠ [])
    (below : ∀ run ∈ runs.dropLast, run.last ≠ topBlock) :
    Tiled start.toNat runs (number.toNat + 1) := by
  induction runs generalizing start with
  | nil => exact absurd rfl nonempty
  | cons run rest ih =>
      rcases bind_eq_ok.mp checked with ⟨root, _, guarded⟩
      rcases guard_eq_ok.mp guarded with ⟨valid, later⟩
      simp only [not_or, not_not, gt_iff_lt, not_lt] at valid
      refine ⟨by rw [valid.1], valid.2.1, ?_⟩
      cases rest with
      | nil =>
          have same : run.last = number := (UInt64.add_left_inj 1).mp (Except.ok.inj later)
          rw [same]
          rfl
      | cons next rest =>
          have inner := ih later (List.cons_ne_nil _ _)
            (fun other member => below other (List.mem_cons_of_mem _ member))
          rw [toNat_succ (below run List.mem_cons_self)] at inner
          exact inner

theorem decode_checks {bytes : Bytes} {head : Head} (decoded : Head.decode env bytes = .ok head) :
    checkRuns env.toPrimitives head.runs 0 = .ok (head.number + 1) ∧ head.runs ≠ [] := by
  rcases bind_eq_ok.mp decoded with ⟨parsed, _, validated⟩
  rcases guard_eq_ok.mp validated with ⟨_, validated⟩
  rcases guard_eq_ok.mp validated with ⟨_, validated⟩
  rcases guard_eq_ok.mp validated with ⟨_, validated⟩
  rcases bind_eq_ok.mp validated with ⟨final, checked, guarded⟩
  rcases guard_eq_ok.mp guarded with ⟨covers, done⟩
  cases done
  simp only [not_or, not_not] at covers
  refine ⟨covers.2 ▸ checked, ?_⟩
  intro nothing
  exact covers.1 (by rw [nothing]; rfl)

/-- An accepted head partitions its blocks exactly if no run but the newest ends at
the last block of all, where the 64-bit successor wraps around to zero. -/
theorem decode_partitions_iff {bytes : Bytes} {head : Head} (decoded : Head.decode env bytes = .ok head) :
    Partitions head ↔ ∀ run ∈ head.runs.dropLast, run.last ≠ topBlock := by
  rcases decode_checks decoded with ⟨checked, nonempty⟩
  constructor
  · intro partitions run member top
    have ascending := partitions.ascending
    rw [← List.dropLast_append_getLast nonempty, List.pairwise_append] at ascending
    have above := ascending.2.2 run member _ (List.mem_singleton.mpr rfl)
    rw [top, UInt64.lt_iff_toNat_lt] at above
    have bound := (head.runs.getLast nonempty).start.toNat_lt
    have last : topBlock.toNat = 2 ^ 64 - 1 := rfl
    omega
  · intro below
    exact (tiled_of_checkRuns checked nonempty below).partitions

/-- Two runs without bytes, the first of them over all blocks there are. -/
def wrappedHead : Head :=
  let root : ObjectRef := ⟨.ofNat 0xe3b0c44298fc1c149afbf4c8996fb92427ae41e4649b934ca495991b7852b855, 0⟩
  ⟨headMagic, 1, .zero, 0, .zero, .zero, .zero, none,
    [⟨0, topBlock, 1, 0, 1, root, []⟩, ⟨0, 0, 1, 0, 1, root, []⟩], []⟩

/-- The newest of them alone. -/
def singleHead : Head := { wrappedHead with l0 := wrappedHead.l0.drop 1 }

def emptyRoots : Externals :=
  .ofTables ⟨digestOf [([], 0xe3b0c44298fc1c149afbf4c8996fb92427ae41e4649b934ca495991b7852b855)],
    fun _ => bail "no pages", fun _ _ => bail "no pages"⟩ [] [] [wrappedHead, singleHead]

/-- The successor of the last block is zero, so decoding takes the second run, which
starts at block zero again, for the one that follows the first. -/
theorem decode_wrapped :
    Head.decode emptyRoots wrappedHead.jsonBytes = .ok wrappedHead ∧ ¬ Partitions wrappedHead := by
  refine ⟨by decide +kernel, ?_⟩
  intro partitions
  exact absurd (partitions.bounded _ List.mem_cons_self) (by decide)

theorem decode_single :
    Head.decode emptyRoots singleHead.jsonBytes = .ok singleHead ∧ Partitions singleHead := by
  have decoded : Head.decode emptyRoots singleHead.jsonBytes = .ok singleHead := by decide +kernel
  exact ⟨decoded, (decode_partitions_iff decoded).mpr (by decide)⟩

/-! Merging pieces. -/

theorem sortRecords_perm (records : List Record) : (sortRecords records).Perm records :=
  List.perm_insertionSort _ _

theorem sortRecords_strictlySorted {records : List Record}
    (distinct : (records.map Record.version).Nodup) :
    StrictlySorted Record.version (sortRecords records) := by
  have ordered : (sortRecords records).Pairwise (fun left right => left.version ≤ right.version) :=
    List.pairwise_insertionSort _ _
  have unequal : (sortRecords records).Pairwise (fun left right => left.version ≠ right.version) :=
    List.pairwise_map.mp (((sortRecords_perm records).map Record.version).nodup_iff.mpr distinct)
  exact (ordered.and unequal).imp (fun both => lt_of_le_of_ne both.1 both.2)

/-- Pieces of disjoint intervals hold no version twice. -/
theorem versions_nodup {pieces : List (Piece env)} {first bound : Nat}
    (tiled : Tiled first (pieces.map Piece.run) bound) :
    ((pieces.flatMap Piece.records).map Record.version).Nodup := by
  rw [List.map_flatMap, List.nodup_flatMap]
  constructor
  · intro piece _
    exact List.pairwise_map.mpr (piece.sorted.imp (fun below => ne_of_lt below))
  · apply (List.pairwise_map.mp tiled.pairwise).imp
    intro older newer before version inOlder inNewer
    rcases List.mem_map.mp inOlder with ⟨old, oldMember, rfl⟩
    rcases List.mem_map.mp inNewer with ⟨new, newMember, same⟩
    have blocks : new.block = old.block := (version_inj.mp same).2
    have late := (newer.inside new newMember).1
    have early := (older.inside old oldMember).2
    rw [blocks] at late
    exact absurd (lt_of_lt_of_le before (le_trans late early)) (lt_irrefl _)

theorem interleaves_sortRecords {pieces : List (Piece env)} {first bound : Nat}
    (tiled : Tiled first (pieces.map Piece.run) bound) :
    Interleaves Record.version (sortRecords (pieces.flatMap Piece.records))
      (pieces.map Piece.records) := by
  refine ⟨sortRecords_strictlySorted (versions_nodup tiled), ?_, ?_⟩
  · intro source member
    rcases List.mem_map.mp member with ⟨piece, _, rfl⟩
    exact piece.sorted
  · rw [← List.flatMap_def]
    exact sortRecords_perm _

/-- A piece that is the fold of others, oldest first. -/
structure Merges (inputs : List (Piece env)) (weight : UInt64) (merged : Piece env) : Prop where
  records : merged.records = sortRecords (inputs.flatMap Piece.records)
  expected : merged.expectedKeys = sumKeys (inputs.map Piece.run)
  run : merged.run = foldedRun (inputs.map Piece.run) weight merged.built

theorem Merges.unique {inputs : List (Piece env)} {weight : UInt64} {left right : Piece env}
    (first : Merges inputs weight left) (second : Merges inputs weight right) : left = right := by
  apply Piece.eq_of (first.records.trans second.records.symm)
    (first.expected.trans second.expected.symm)
  · rw [first.run, second.run]
    rfl
  · rw [first.run, second.run]
    rfl
  · rw [first.run, second.run]
    rfl

/-- A finished merge of tiled pieces is a piece. -/
theorem exists_merges {inputs : List (Piece env)} {first bound : Nat}
    (tiled : Tiled first (inputs.map Piece.run) bound) (nonempty : inputs ≠ []) (weight : UInt64)
    {built : BuiltRun} {stored : List (Key × Bytes)}
    (build : buildRun env.toPrimitives (sortRecords (inputs.flatMap Piece.records))
      (sumKeys (inputs.map Piece.run)) = .ok (built, stored)) :
    ∃ merged : Piece env, Merges inputs weight merged ∧ merged.built = built ∧ merged.stored = stored := by
  have whole := tiled.folded (by simpa using nonempty) weight built
  have inside : ∀ record ∈ sortRecords (inputs.flatMap Piece.records),
      (foldedRun (inputs.map Piece.run) weight built).start ≤ record.block ∧
        record.block ≤ (foldedRun (inputs.map Piece.run) weight built).last := by
    intro record member
    rcases List.mem_flatMap.mp ((sortRecords_perm _).mem_iff.mp member) with ⟨piece, isInput, held⟩
    have bounds := tiled.within.2 piece.run (List.mem_map_of_mem isInput)
    have start := whole.1
    have last : (foldedRun (inputs.map Piece.run) weight built).last.toNat + 1 = bound := whole.2.2
    rcases piece.inside record held with ⟨above, below⟩
    constructor
    · refine le_trans ?_ above
      apply UInt64.le_iff_toNat_le.mpr
      omega
    · refine le_trans below ?_
      apply UInt64.le_iff_toNat_le.mpr
      omega
  exact ⟨⟨_, _, _, built, stored, build, rfl, whole.2.1, inside⟩, ⟨rfl, rfl, rfl⟩, rfl, rfl⟩

end

end Fossil

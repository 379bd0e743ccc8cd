import Fossil.Writers
import Fossil.Queries
import Fossil.Retained

/-! Collections of an archive at rest.

In a store that publishers and compactors have written, the walk of a head meets no
obstacle: everything the head reaches is stored, and no run is lost to the check for
its root. A collection then leaves exactly what the head reaches and the newest
copies of earlier heads. -/

namespace Fossil

section

variable {env : Externals} {backend : Backend} {owner : Call} {state : ArchiveSystem}

theorem withFetch_run {α : Type} (code : Codec α) :
    ((withFetch env.toPrimitives code).run (state.replies env.toPrimitives backend owner)).2 =
      (code.run (state.view env.toPrimitives backend owner)).2 :=
  Prog.run_lift (fun _ => Prog.run_attempt _) code

/-- What a head reaches is what walks of its runs add. -/
theorem reaches_iff {head : Head}
    (listing : ∀ run ∈ head.runs, ∃ keys, run.listed env (state.replies env.toPrimitives backend owner) = .ok keys)
    (key : Key) : head.Reaches env.toPrimitives (state.view env.toPrimitives backend owner) key ↔
      ∃ run ∈ head.runs, run.Adds (Run.listed env (state.replies env.toPrimitives backend owner)) key := by
  constructor
  · intro reaches
    cases reaches with
    | @root run member => exact ⟨run, member, .inl rfl⟩
    | @object run bytes reader reference member input opened links =>
        rcases listing run member with ⟨keys, found⟩
        rcases Run.listed_eq_ok.mp found with ⟨bytes', reader', refs, input', opened', listed, same⟩
        cases input.symm.trans input'
        cases opened.symm.trans opened'
        rw [withFetch_run] at listed
        refine ⟨run, member, .inr (.inl ⟨keys, found, ?_⟩)⟩
        rw [same]
        exact List.mem_map.mpr ⟨reference, (objectRefs_lists listed reference).mpr links, rfl⟩
    | @shard run kind index member small =>
        exact ⟨run, member, .inr (.inr (mem_shardKeysOf.mpr ⟨kind, index, small, rfl⟩))⟩
  · rintro ⟨run, member, rfl | ⟨keys, found, inside⟩ | shard⟩
    · exact .root member
    · rcases Run.listed_eq_ok.mp found with ⟨bytes, reader, refs, input, opened, listed, rfl⟩
      rw [withFetch_run] at listed
      rcases List.mem_map.mp inside with ⟨reference, listing, rfl⟩
      exact .object member input opened ((objectRefs_lists listed reference).mp listing)
    · rcases mem_shardKeysOf.mp shard with ⟨kind, index, small, rfl⟩
      exact .shard member small

/-! Pieces that are stored. -/

theorem Fetchable.named {object : EncodedObject} (fetchable : Fetchable env state object)
    (nameable : state.content (.object Fixed.zero) = none) : object.reference.digest ≠ Fixed.zero := by
  intro zero
  have held := fetchable.held
  rw [Holds, EncodedObject.objectKey, zero, nameable] at held
  cases held

theorem Fetchable.view {object : EncodedObject} (fetchable : Fetchable env state object)
    (named : object.reference.digest ≠ Fixed.zero) :
    state.view env.toPrimitives backend owner object.reference = .ok object.bytes := by
  have within := fetchable.within
  rcases makeObject_eq_ok.mp fetchable.addressed with ⟨small, same⟩
  have length : object.reference.length.toNat = object.bytes.length := by
    conv => lhs; rw [same]
    exact toNat_ofNat_of_lt small
  have accepted : ¬ (object.reference.length.toNat = 0 ∨ object.reference.length.toNat > pageLimit ∨
      object.reference.digest = Fixed.zero) := by
    rintro (empty | large | zero)
    · exact within.length_ne_zero (UInt32.toNat_inj.mp empty)
    · exact absurd within.bounded (Nat.not_le_of_gt large)
    · exact named zero
  have valid : ¬ (object.bytes.length ≠ object.reference.length.toNat ∨
      env.sha256 object.bytes ≠ object.reference.digest) := by
    rw [length, fetchable.addressed.digest]
    simp
  have read := @replies_getBounded _ env.toPrimitives backend owner _ _ _ object.reference.length.toNat
    fetchable.held (by omega)
  unfold System.view fetch
  dsimp only
  rw [if_neg accepted]
  refine Prog.run_bind_eq_ok.mpr ⟨object.bytes, (run_getBounded _ _ _).trans read, ?_⟩
  exact Prog.run_guard_eq_ok.mpr ⟨valid, rfl⟩

theorem serves_view (nameable : state.content (.object Fixed.zero) = none) (reference : ObjectRef) :
    Serves (Fetchable env state) (fun _ => False) reference
      (state.view env.toPrimitives backend owner reference) := by
  intro object fetchable same
  subst same
  exact .inl (fetchable.view (fetchable.named nameable))

theorem serving_view (lossless : env.toPrimitives.Lossless)
    (nameable : state.content (.object Fixed.zero) = none) :
    Serving env.toPrimitives (Fetchable env state) (fun _ => False) :=
  ⟨lossless, .inl (fun _ fetchable => fetchable.named nameable), fun _ _ wrong => wrong⟩

theorem RunTree.Readable.opens {tree : RunTree env.toPrimitives} (readable : tree.Readable (Fetchable env state))
    (nameable : state.content (.object Fixed.zero) = none) :
    RunReader.decode env.toPrimitives tree.object.reference tree.object.bytes = .ok tree.reader := by
  rcases readable.decode with done | ⟨⟨object, fetchable, zero⟩, _⟩
  · exact done
  · exact absurd zero (fetchable.named nameable)

/-- The tree of a stored piece, as readers of its run find it. -/
structure Piece.Opened (piece : Piece env) (state : ArchiveSystem) (tree : RunTree env.toPrimitives)
    (objects : List EncodedObject) : Prop where
  stores : tree.Stores piece.records objects
  readable : tree.Readable (Fetchable env state)
  root : piece.run.root = tree.object.reference
  input : hexDecode piece.run.rootBytes = .ok tree.object.bytes
  decoded : RunReader.decode env.toPrimitives piece.run.root tree.object.bytes = .ok tree.reader
  held : Holds state (.object piece.run.root.digest) tree.object.bytes

theorem Piece.opened (piece : Piece env) (stored : ∀ object ∈ piece.stored, Holds state object.1 object.2)
    (nameable : state.content (.object Fixed.zero) = none) :
    ∃ tree objects, piece.Opened state tree objects := by
  rcases buildRun_tree piece.build with ⟨tree, objects, stores, root, bytes, inside⟩
  have readable : tree.Readable (Fetchable env state) :=
    stores.fetchable (fun object member => stored object (inside object member))
  have same : piece.run.root = tree.object.reference := piece.root_eq.trans root
  refine ⟨tree, objects, stores, readable, same, ?_, ?_, ?_⟩
  · rw [piece.shape, ← bytes]
    exact hexDecode_hexEncode _
  · rw [same]
    exact readable.opens nameable
  · rw [same]
    exact stored _ (inside _ (List.mem_map_of_mem (List.mem_of_getLast? stores.root)))

namespace Piece.Opened

variable {piece other : Piece env} {tree otherTree : RunTree env.toPrimitives}
  {objects otherObjects : List EncodedObject} (opened : piece.Opened state tree objects)

include opened

theorem listed (backend : Backend) (owner : Call) (lossless : env.toPrimitives.Lossless)
    (nameable : state.content (.object Fixed.zero) = none) :
    piece.run.listed env (state.replies env.toPrimitives backend owner) =
      .ok (tree.refs.map (fun reference => .object reference.digest)) := by
  refine Run.listed_eq_ok.mpr ⟨_, _, tree.refs, opened.input, opened.decoded, ?_, rfl⟩
  rw [withFetch_run]
  have walked : Yields _ _ ((tree.reader.objectRefs env.toPrimitives).run
      (state.view env.toPrimitives backend owner)).2 :=
    (objectRefs_meets (serving_view lossless nameable) opened.readable).run (serves_view nameable)
  rcases walked with ⟨refs, done, same⟩ | ⟨_, _, wrong⟩
  · rw [done, same]
  · exact wrong.elim

/-- Every listed object is stored, and is not a root. -/
theorem ref_held {reference : ObjectRef} (member : reference ∈ tree.refs) :
    ∃ bytes, Holds state (.object reference.digest) bytes ∧ ¬ rootMagic <+: bytes := by
  rcases tree.object_of_ref member with ⟨shard, object, inside, rfl⟩
  exact ⟨object.bytes, (opened.readable.present shard object inside).held, (tree.part shard).not_root inside⟩

theorem root_unlisted (second : other.Opened state otherTree otherObjects) :
    other.run.rootKey ∉ tree.refs.map (fun reference => Key.object reference.digest) := by
  intro member
  rcases List.mem_map.mp member with ⟨reference, inside, same⟩
  rcases opened.ref_held inside with ⟨bytes, held, notRoot⟩
  have root := second.held
  rw [Holds] at held root
  rw [same, Run.rootKey, root] at held
  cases held
  exact notRoot otherTree.root_front

/-- Pieces with one root have one reader. -/
theorem reader_eq (second : other.Opened state otherTree otherObjects)
    (same : piece.run.root.digest = other.run.root.digest) :
    tree.object = otherTree.object ∧ tree.reader = otherTree.reader := by
  have held := opened.held
  rw [Holds, same, second.held] at held
  have bytes : tree.object.bytes = otherTree.object.bytes := (Option.some.inj held).symm
  have object : tree.object = otherTree.object := by
    have left := addressed_of_makeObject tree.made
    have right := addressed_of_makeObject otherTree.made
    rw [EncodedObject.Addressed, bytes] at left
    exact Except.ok.inj (left.symm.trans right)
  refine ⟨object, ?_⟩
  have decoded := opened.decoded
  rw [opened.root, object, ← second.root, second.decoded] at decoded
  exact (Except.ok.inj decoded).symm

/-- What one of two pieces with one root holds, the other holds as well. -/
theorem shared (backend : Backend) (owner : Call) (lossless : env.toPrimitives.Lossless)
    (nameable : state.content (.object Fixed.zero) = none)
    (second : other.Opened state otherTree otherObjects)
    (same : piece.run.root.digest = other.run.root.digest) {record : Record} (member : record ∈ piece.records) :
    ∃ twin ∈ other.records, twin.block ≤ record.block := by
  have nonempty := (opened.stores.fits record member).key
  have serving : Serving env.toPrimitives (Fetchable env state) (fun _ => False) :=
    serving_view lossless nameable
  have here : Yields _ (Newest piece.records record.key record.block)
      ((tree.reader.lookup env.toPrimitives record.key record.block).run
        (state.view env.toPrimitives backend owner)).2 :=
    (RunTree.lookup_meets serving opened.stores opened.readable nonempty).run (serves_view nameable)
  have there : Yields _ (Newest other.records record.key record.block)
      ((otherTree.reader.lookup env.toPrimitives record.key record.block).run
        (state.view env.toPrimitives backend owner)).2 :=
    (RunTree.lookup_meets serving second.stores second.readable nonempty).run (serves_view nameable)
  rw [(opened.reader_eq second same).2] at here
  rcases here with ⟨value, done, newest⟩ | ⟨_, _, wrong⟩
  · rcases there with ⟨value', done', newest'⟩ | ⟨_, _, wrong⟩
    · cases done.symm.trans done'
      cases value with
      | none => exact absurd (newest record member rfl) (lt_irrefl _)
      | some value =>
          rcases newest' with ⟨twin, inside, _, low, _⟩
          exact ⟨twin, inside, low⟩
    · exact wrong.elim
  · exact wrong.elim

/-- Of two pieces with one root and different blocks, neither holds anything. -/
theorem both_empty (backend : Backend) (owner : Call) (lossless : env.toPrimitives.Lossless)
    (nameable : state.content (.object Fixed.zero) = none)
    (second : other.Opened state otherTree otherObjects)
    (same : piece.run.root.digest = other.run.root.digest) (apart : piece.run.last < other.run.start) :
    piece.records = [] ∧ other.records = [] := by
  have older : piece.records = [] := by
    apply List.eq_nil_iff_forall_not_mem.mpr
    intro record member
    rcases opened.shared backend owner lossless nameable second same member with ⟨twin, inside, low⟩
    have above := (other.inside twin inside).1
    have below := (piece.inside record member).2
    exact absurd (lt_of_le_of_lt (low.trans below) apart) (not_lt_of_ge above)
  refine ⟨older, List.eq_nil_iff_forall_not_mem.mpr ?_⟩
  intro record member
  rcases second.shared backend owner lossless nameable opened same.symm member with ⟨twin, inside, _⟩
  rw [older] at inside
  cases inside

end Piece.Opened

end

/-! The runs of a head. -/

section

variable {env : Externals} {accepts : Package → Prop} {backend : Backend} {owner : Call} {state : ArchiveSystem}
  {manifest : Manifest env accepts}

theorem Merges.sized {inputs : List (Piece env)} {weight : UInt64} {merged : Piece env}
    (merges : Merges inputs weight merged) (empty : merged.records = []) : merged.expectedKeys = 0 := by
  have nothing : inputs.flatMap Piece.records = [] := by
    have same := sortRecords_perm (inputs.flatMap Piece.records)
    rw [← merges.records, empty] at same
    exact List.nil_perm.mp same
  have zero : ∀ piece ∈ inputs, piece.run.keys = 0 := by
    intro piece member
    rw [piece.keys_eq, List.flatMap_eq_nil_iff.mp nothing piece member]
    rfl
  rw [merges.expected, sumKeys]
  clear merges nothing
  induction inputs with
  | nil => rfl
  | cons piece rest ih =>
      rw [List.map_cons, List.map_cons, List.sum_cons, zero piece List.mem_cons_self, UInt64.zero_add]
      exact ih (fun other member => zero other (List.mem_cons_of_mem _ member))

/-- Runs without records were all built for no keys. -/
theorem History.sized {chainId : UInt64} {durable : Key → Bytes → Prop} {commits : List (Commit Call)}
    {bytes : Bytes} (history : History env accepts chainId durable commits manifest bytes) :
    ∀ piece ∈ manifest.current, piece.records = [] → piece.expectedKeys = 0 := by
  have published : ∀ publication : Publication env accepts, publication.piece.records = [] →
      publication.piece.expectedKeys = 0 := by
    intro publication empty
    rw [publication.expected, empty]
    rfl
  induction history with
  | @anchor publication gate bytes begins chain encoded small stored =>
      intro piece member
      replace member : piece ∈ [publication.piece] := member
      rw [List.mem_singleton.mp member]
      exact published publication
  | step before moves encoded small stored copied ih =>
      intro piece member
      rcases moves.current piece member with rfl | old
      · cases moves with
        | append publication => exact published publication
        | fold chainId planned merged enough made merges => exact merges.sized
      · exact ih piece old

/-- A walk cannot confuse the runs of a written head. -/
theorem separate_current (parent : Option ObjectRef) (lossless : env.toPrimitives.Lossless)
    (nameable : state.content (.object Fixed.zero) = none)
    (stored : ∀ piece ∈ manifest.current, ∀ object ∈ piece.stored, Holds state object.1 object.2)
    (sized : ∀ piece ∈ manifest.current, piece.records = [] → piece.expectedKeys = 0) :
    Separate (Run.listed env (state.replies env.toPrimitives backend owner)) (manifest.head parent).runs := by
  have pieces : ∀ run ∈ (manifest.head parent).runs, ∃ piece ∈ manifest.current, piece.run = run := by
    intro run member
    rw [manifest.head_runs] at member
    exact List.mem_map.mp member
  have opens := fun piece member => Piece.opened piece (stored piece member) nameable
  refine ⟨?_, ?_, ?_⟩
  · intro run member
    rcases pieces run member with ⟨piece, inside, rfl⟩
    rcases opens piece inside with ⟨tree, objects, opened⟩
    exact ⟨_, opened.listed backend owner lossless nameable⟩
  · intro first inFirst second inSecond same
    by_cases equal : first = second
    · rw [equal]
      exact ⟨rfl, rfl⟩
    · have apart : first.last < second.start ∨ second.last < first.start := by
        rw [manifest.head_runs] at inFirst inSecond
        exact manifest.current_tiled.apart inFirst inSecond equal
      rcases pieces first inFirst with ⟨one, inOne, rfl⟩
      rcases pieces second inSecond with ⟨two, inTwo, rfl⟩
      rcases opens one inOne with ⟨tree, objects, opened⟩
      rcases opens two inTwo with ⟨tree', objects', opened'⟩
      have none : one.records = [] ∧ two.records = [] := by
        rcases apart with older | newer
        · exact opened.both_empty backend owner lossless nameable opened' same older
        · exact (opened'.both_empty backend owner lossless nameable opened same.symm newer).symm
      constructor
      · have object := (opened.reader_eq opened' same).1
        unfold Run.listed Run.input
        rw [opened.input, opened'.input, opened.root, opened'.root, object]
      · rw [one.shards_eq, two.shards_eq, sized one inOne none.1, sized two inTwo none.2]
  · intro first inFirst second inSecond keys listing
    rcases pieces first inFirst with ⟨one, inOne, rfl⟩
    rcases pieces second inSecond with ⟨two, inTwo, rfl⟩
    rcases opens one inOne with ⟨tree, objects, opened⟩
    rcases opens two inTwo with ⟨tree', objects', opened'⟩
    cases listing.symm.trans (opened.listed backend owner lossless nameable)
    exact opened.root_unlisted opened'

/-- The copies a collection keeps are those of the newest earlier commits. -/
theorem History.copies (codec : HeadsRoundTrip env) {chainId : UInt64} {commits : List (Commit Call)}
    {bytes : Bytes} (history : History env accepts chainId (Holds state) commits manifest bytes) :
    ∃ parent, env.headToVec (manifest.head parent) = .ok bytes ∧ ∀ keep,
      headCopies env (state.replies env.toPrimitives backend owner) keep parent =
        (commits.dropLast.reverse.take keep).map (fun commit => env.sha256 commit.bytes) := by
  induction history with
  | anchor begins chain encoded small stored =>
      refine ⟨none, encoded, ?_⟩
      intro keep
      cases keep <;> rfl
  | @step commits manifest next call piece previous bytes before moves encoded small stored copied ih =>
      refine ⟨_, encoded, ?_⟩
      rcases ih with ⟨parent, encodedBefore, copies⟩
      have newest : commits.reverse.map Commit.bytes = previous :: commits.dropLast.reverse.map Commit.bytes := by
        rcases List.eq_nil_or_concat commits with nothing | ⟨front, final, whole⟩
        · exact absurd nothing before.commits_ne_nil
        · have ends := before.last
          rw [whole, List.concat_eq_append, List.getLast?_concat] at ends
          rw [whole, List.concat_eq_append, List.reverse_append, List.dropLast_concat]
          simp only [List.reverse_singleton, List.singleton_append, List.map_cons]
          rw [Option.some.inj ends]
      intro keep
      rw [List.dropLast_concat]
      have digests : (commits.reverse.take keep).map (fun commit => env.sha256 commit.bytes) =
          ((commits.reverse.map Commit.bytes).take keep).map env.sha256 := by
        rw [← List.map_take, List.map_map]
        rfl
      rw [digests, newest]
      cases keep with
      | zero => rfl
      | succ keep =>
          unfold headCopies
          rw [copyRef, run_getBounded, replies_getBounded copied before.head.2.1]
          simp only [List.take_succ_cons, List.map_cons]
          rw [codec _ _ encodedBefore]
          simp only [Manifest.head]
          rw [copies keep, ← List.map_take, List.map_map]
          rfl

end

/-! Stores that agree on what a head reaches. -/

section

variable {env : Externals} {backend : Backend} {owner : Call} {state later : ArchiveSystem}

theorem replies_congr {key : Key} {maximum : Nat} (same : later.lookup key = state.lookup key) :
    later.replies env.toPrimitives backend owner (.getBounded key maximum) =
      state.replies env.toPrimitives backend owner (.getBounded key maximum) := by
  show later.getBounded backend key maximum = state.getBounded backend key maximum
  unfold System.getBounded
  rw [same]

theorem view_congr {reference : ObjectRef}
    (same : later.lookup (.object reference.digest) = state.lookup (.object reference.digest)) :
    later.view env.toPrimitives backend owner reference = state.view env.toPrimitives backend owner reference := by
  have asks : (fetch env.toPrimitives reference).Asks
      (fun op => op.Reads ∧ op.Inside (· = .object reference.digest)) := fetch_asks rfl
  unfold System.view
  rw [Prog.run_congr]
  intro op asked
  rcases asks.run _ op asked with ⟨reads, inside⟩
  cases op with
  | getBounded key maximum =>
      have here : key = .object reference.digest := inside
      exact replies_congr (here ▸ same)
  | readMutableBounded key maximum =>
      have here : key = .object reference.digest := inside
      show later.readMutableBounded env.toPrimitives backend key maximum =
        state.readMutableBounded env.toPrimitives backend key maximum
      unfold System.readMutableBounded
      rw [here, same]
  | _ => exact reads.elim

theorem listed_congr {head : Head} {run : Run} (member : run ∈ head.runs)
    (same : ∀ key, head.Reaches env.toPrimitives (state.view env.toPrimitives backend owner) key →
      later.lookup key = state.lookup key) :
    run.listed env (later.replies env.toPrimitives backend owner) =
      run.listed env (state.replies env.toPrimitives backend owner) := by
  unfold Run.listed Run.input
  cases input : hexDecode run.rootBytes with
  | error error => rfl
  | ok bytes =>
      rw [ok_bind, ok_bind, ok_bind]
      dsimp only
      cases opened : RunReader.decode env.toPrimitives run.root bytes with
      | error error => rfl
      | ok reader =>
          rw [ok_bind, ok_bind, withFetch_run, withFetch_run]
          rw [objectRefs_congr (fun reference links => view_congr (same _ (.object member input opened links)))]

end

/-! Collections. -/

section

variable (env : Externals) (backend : Backend) (owner : Call)

/-- What a collection leaves: everything the head reaches, and the copies of the newest
heads before it. -/
def Keeps (state : ArchiveSystem) (chainId : UInt64) (keepHeads : Nat) (head : Head) (key : Key) : Prop :=
  head.Reaches env.toPrimitives (state.view env.toPrimitives backend owner) key ∨
    ∃ commit ∈ (state.commits chainId).dropLast.reverse.take keepHeads, key = .object (env.sha256 commit.bytes)

/-- A way in which a query of a freshly opened reader can end. -/
def Asked {α : Type} (chainId : UInt64) (query : Reader → StoreProg α) (state : ArchiveSystem)
    (outcome : Except Error α) : Prop :=
  ((Reader.open env chainId).bind query).Ends ((calm env.toPrimitives backend).step owner) state outcome

/-- The effect of an exact collection. -/
structure Collected (chainId : UInt64) (keepHeads : Nat) (minAge : Time) (head : Head)
    (before after : ArchiveSystem) : Prop where
  remaining : ∀ key, key.immutable = true →
    ((after.lookup key).isSome = true ↔ Keeps env backend owner before chainId keepHeads head key)
  untouched : ∀ key, (after.lookup key).isSome = true → after.lookup key = before.lookup key
  heads : ∀ other, after.lookup (.head other) = before.lookup (.head other)
  account : ∀ address block outcome,
    Asked env backend owner chainId (fun reader => reader.account env address block) after outcome ↔
      Asked env backend owner chainId (fun reader => reader.account env address block) before outcome
  storage : ∀ address slot block outcome,
    Asked env backend owner chainId (fun reader => reader.storage env address slot block) after outcome ↔
      Asked env backend owner chainId (fun reader => reader.storage env address slot block) before outcome
  code : ∀ address block outcome,
    Asked env backend owner chainId (fun reader => reader.code env address block) after outcome ↔
      Asked env backend owner chainId (fun reader => reader.code env address block) before outcome
  again : (collectGarbage env chainId keepHeads minAge false).Follows
    ((calm env.toPrimitives backend).step owner)
    (fun outcome later => ∃ report, outcome = .ok report ∧ report.deletedObjects = 0 ∧
      ∀ key, later.lookup key = after.lookup key) after

end

section

variable {env : Externals} {accepts : Package → Prop} {backend : Backend} {owner : Call} {state after : ArchiveSystem}
  {chainId : UInt64} {keepHeads : Nat} {minAge : Time} {head : Head} {bytes : VersionedBytes}

/-- The store after a collection that keeps exactly these objects. -/
structure Sifted (keeps : Key → Prop) (before after : ArchiveSystem) : Prop where
  kept : ∀ key, keeps key → after.lookup key = before.lookup key
  heads : ∀ other, after.lookup (.head other) = before.lookup (.head other)
  untouched : ∀ key, after.lookup key = before.lookup key ∨ after.lookup key = none
  remaining : ∀ key, key.immutable = true → ((after.lookup key).isSome = true ↔ keeps key)
  memo : after.memo = before.memo
  nextCache : after.nextCache = before.nextCache
  clock : before.clock ≤ after.clock

theorem Purged.sifted {keeps : Key → Prop} {doomed : List Key} (purged : Purged doomed state after)
    (inDoomed : ∀ key, key ∈ doomed ↔ key.immutable = true ∧ (state.lookup key).isSome = true ∧ ¬ keeps key)
    (present : ∀ key, keeps key → (state.lookup key).isSome = true) : Sifted keeps state after := by
  have kept : ∀ key, keeps key → after.lookup key = state.lookup key := by
    intro key keep
    rw [purged.lookup, if_neg]
    intro inside
    exact ((inDoomed key).mp inside).2.2 keep
  refine ⟨kept, ?_, ?_, ?_, purged.memo, purged.nextCache, purged.clock⟩
  · intro other
    rw [purged.lookup, if_neg]
    intro inside
    cases ((inDoomed _).mp inside).1
  · intro key
    rw [purged.lookup]
    by_cases inside : key ∈ doomed
    · exact .inr (if_pos inside)
    · exact .inl (if_neg inside)
  · intro key immutable
    constructor
    · intro isSome
      rw [purged.lookup] at isSome
      by_cases inside : key ∈ doomed
      · rw [if_pos inside] at isSome
        cases isSome
      · rw [if_neg inside] at isSome
        by_contra outside
        exact inside ((inDoomed key).mpr ⟨immutable, isSome, outside⟩)
    · intro keep
      rw [kept key keep]
      exact present key keep

/-- The two walks of a collection find what is to be kept. -/
theorem Separate.keeps (separate : Separate (Run.listed env (state.replies env.toPrimitives backend owner)) head.runs)
    (copies : headCopies env (state.replies env.toPrimitives backend owner) keepHeads head.parent =
      ((state.commits chainId).dropLast.reverse.take keepHeads).map (fun commit => env.sha256 commit.bytes)) :
    ∃ live final,
      ((Fossil.reachable env head keepHeads []).run (state.replies env.toPrimitives backend owner)).2 =
        .ok live ∧
      ((Fossil.reachable env head keepHeads live).run (state.replies env.toPrimitives backend owner)).2 =
        .ok final ∧
      ∀ key, key ∈ final ↔ Keeps env backend owner state chainId keepHeads head key := by
  rcases separate.reachable keepHeads with ⟨live, final, first, second, members⟩
  refine ⟨live, final, first, second, ?_⟩
  intro key
  rw [members, ← reaches_iff separate.listing, copies]
  unfold Keeps
  simp only [List.mem_map, exists_exists_and_eq_and]

/-- Kept copies are stored. -/
theorem copy_present {digest : Hash32} {parent : Option ObjectRef}
    (member : digest ∈ headCopies env (state.replies env.toPrimitives backend owner) keepHeads parent) :
    (state.lookup (.object digest)).isSome = true := by
  rcases headCopies_read member with ⟨found, done⟩
  replace done : state.getBounded backend (.object digest) maxHead = .ok found := done
  unfold System.getBounded at done
  cases entry : state.lookup (.object digest) with
  | none =>
      rw [entry] at done
      cases done
  | some entry => rfl

section

variable
  (read : ((readHead env chainId).run (state.replies env.toPrimitives backend owner)).2 = .ok (some (bytes, head)))
  (separate : Separate (Run.listed env (state.replies env.toPrimitives backend owner)) head.runs)
  (sifted : Sifted (Keeps env backend owner state chainId keepHeads head) state after)

include read sifted

/-- A query of a fresh reader ends after the collection as it did before. -/
theorem Sifted.asked {α : Type} {query : Reader → StoreProg α} {outcome : Except Error α}
    (stays : ∀ (keys : Key → Prop) (reader : Reader) (now : ArchiveSystem),
      reader.Within env backend owner keys state → now.entries = state.entries →
        Stays env backend owner keys state now (query reader)) :
    Asked env backend owner chainId query after outcome ↔ Asked env backend owner chainId query state outcome := by
  have alike : Alike (fun key => Keeps env backend owner state chainId keepHeads head key ∨ key = .head chainId)
      state after := by
    refine ⟨?_, sifted.memo.symm, sifted.nextCache.symm⟩
    rintro key (keeps | rfl)
    · exact (sifted.kept key keeps).symm
    · exact (sifted.heads chainId).symm
  refine (reads_alike (.inr rfl) ?_ (stays _) alike).symm
  intro found current again key reaches
  cases read.symm.trans again
  exact .inl (.inl reaches)

include separate

/-- Another collection finds nothing to delete. -/
theorem Sifted.again
    (copies : headCopies env (state.replies env.toPrimitives backend owner) keepHeads head.parent =
      ((state.commits chainId).dropLast.reverse.take keepHeads).map (fun commit => env.sha256 commit.bytes))
    (old : ∀ key entry, key.immutable = true → state.lookup key = some entry →
      entry.modified + minAge ≤ state.clock) :
    (collectGarbage env chainId keepHeads minAge false).Follows ((calm env.toPrimitives backend).step owner)
      (fun outcome later => ∃ report, outcome = .ok report ∧ report.deletedObjects = 0 ∧
        ∀ key, later.lookup key = after.lookup key) after := by
  have listed : ∀ run ∈ head.runs, run.listed env (after.replies env.toPrimitives backend owner) =
      run.listed env (state.replies env.toPrimitives backend owner) :=
    fun run member => listed_congr member (fun key reaches => sifted.kept key (.inl reaches))
  have copied : headCopies env (after.replies env.toPrimitives backend owner) keepHeads head.parent =
      headCopies env (state.replies env.toPrimitives backend owner) keepHeads head.parent := by
    apply headCopies_congr
    · intro digest member
      rw [copies] at member
      rcases List.mem_map.mp member with ⟨commit, inside, rfl⟩
      exact replies_congr (sifted.kept _ (.inr ⟨commit, inside, rfl⟩))
    · intro digest
      rcases sifted.untouched (.object digest) with same | gone
      · exact .inl (replies_congr same)
      · refine .inr ⟨System.notFound (.object digest), ?_⟩
        show after.getBounded backend (.object digest) maxHead = _
        unfold System.getBounded
        rw [gone]
  have reread : ((readHead env chainId).run (after.replies env.toPrimitives backend owner)).2 =
      .ok (some (bytes, head)) := by
    rcases readHead_run.mp read with ⟨found, valid⟩
    refine readHead_run.mpr ⟨?_, valid⟩
    rw [← found]
    show after.readMutableBounded env.toPrimitives backend (.head chainId) maxHead =
      state.readMutableBounded env.toPrimitives backend (.head chainId) maxHead
    unfold System.readMutableBounded
    rw [sifted.heads]
  rcases (separate.congr listed).reachable keepHeads with ⟨live, final, first, second, members⟩
  have settled : ∀ key entry, key.immutable = true → after.lookup key = some entry →
      entry.modified + minAge ≤ after.clock := by
    intro key entry immutable present
    rcases sifted.untouched key with same | gone
    · rw [same] at present
      exact (old key entry immutable present).trans sifted.clock
    · rw [gone] at present
      cases present
  have covered : ∀ key, key.immutable = true → (after.lookup key).isSome = true → key ∈ final := by
    intro key immutable isSome
    rw [members, copied, copies]
    rcases (sifted.remaining key immutable).mp isSome with reaches | ⟨commit, inside, rfl⟩
    · rcases (reaches_iff separate.listing key).mp reaches with ⟨run, member, adds⟩
      refine .inl ⟨run, member, ?_⟩
      unfold Run.Adds at adds ⊢
      rw [listed run member]
      exact adds
    · exact .inr ⟨_, List.mem_map.mpr ⟨commit, inside, rfl⟩, rfl⟩
  apply (collectGarbage_follows reread first second settled).weaken
  rintro outcome later ⟨report, doomed, done, purged, inDoomed, none⟩
  have nothing : doomed = [] := by
    apply List.eq_nil_iff_forall_not_mem.mpr
    intro key inside
    rcases (inDoomed key).mp inside with ⟨immutable, isSome, outside⟩
    exact outside (covered key immutable isSome)
  refine ⟨report, done, none nothing, ?_⟩
  intro key
  rw [purged.lookup, nothing]
  exact if_neg List.not_mem_nil

end

/-- A collection of separate runs that are all stored is exact. -/
theorem collected_of_separate
    (read : ((readHead env chainId).run (state.replies env.toPrimitives backend owner)).2 = .ok (some (bytes, head)))
    (separate : Separate (Run.listed env (state.replies env.toPrimitives backend owner)) head.runs)
    (copies : headCopies env (state.replies env.toPrimitives backend owner) keepHeads head.parent =
      ((state.commits chainId).dropLast.reverse.take keepHeads).map (fun commit => env.sha256 commit.bytes))
    (present : ∀ key, head.Reaches env.toPrimitives (state.view env.toPrimitives backend owner) key →
      (state.lookup key).isSome = true)
    (old : ∀ key entry, key.immutable = true → state.lookup key = some entry →
      entry.modified + minAge ≤ state.clock) :
    (collectGarbage env chainId keepHeads minAge false).Follows ((calm env.toPrimitives backend).step owner)
      (fun outcome after => (∃ report, outcome = .ok report) ∧
        Collected env backend owner chainId keepHeads minAge head state after) state := by
  rcases separate.keeps copies with ⟨live, final, first, second, members⟩
  have stored : ∀ key, Keeps env backend owner state chainId keepHeads head key →
      (state.lookup key).isSome = true := by
    rintro key (reaches | ⟨commit, member, rfl⟩)
    · exact present key reaches
    · apply copy_present
      rw [copies]
      exact List.mem_map.mpr ⟨commit, member, rfl⟩
  apply (collectGarbage_follows read first second old).weaken
  rintro outcome after ⟨report, doomed, done, purged, inDoomed, _⟩
  have sifted : Sifted (Keeps env backend owner state chainId keepHeads head) state after := by
    refine purged.sifted ?_ stored
    intro key
    rw [inDoomed, members]
  refine ⟨⟨report, done⟩, sifted.remaining, ?_, sifted.heads, ?_, ?_, ?_, ?_⟩
  · intro key isSome
    rcases sifted.untouched key with same | gone
    · exact same
    · rw [gone] at isSome
      cases isSome
  · intro address block outcome
    exact sifted.asked read (fun _ _ _ within same => account_stays within same)
  · intro address slot block outcome
    exact sifted.asked read (fun _ _ _ within same => storage_stays within same)
  · intro address block outcome
    exact sifted.asked read (fun _ _ _ within same => code_stays within same)
  · exact sifted.again read separate copies old

end

/-! Archives. -/

section

variable {env : Externals} {accepts : Package → Prop} {backend : Backend} {faulty : StoreOp → Prop} {owner : Call}
  {state : ArchiveSystem} {manifest : Manifest env accepts} {pool : ArchivePool} {chainId : UInt64}

/-- Everything the head of a written archive reaches is stored. -/
theorem reaches_present (parent : Option ObjectRef) (lossless : env.toPrimitives.Lossless)
    (nameable : state.content (.object Fixed.zero) = none)
    (stored : ∀ piece ∈ manifest.current, ∀ object ∈ piece.stored, Holds state object.1 object.2) {key : Key}
    (reaches : (manifest.head parent).Reaches env.toPrimitives (state.view env.toPrimitives backend owner) key) :
    (state.lookup key).isSome = true := by
  have held : ∀ {key : Key} {bytes : Bytes}, Holds state key bytes → (state.lookup key).isSome = true := by
    intro key bytes holds
    rcases Option.map_eq_some_iff.mp holds with ⟨entry, found, _⟩
    rw [found]
    rfl
  have pieces : ∀ run ∈ (manifest.head parent).runs, ∃ piece ∈ manifest.current, piece.run = run := by
    intro run member
    rw [manifest.head_runs] at member
    exact List.mem_map.mp member
  cases reaches with
  | root member =>
      rcases pieces _ member with ⟨piece, inside, rfl⟩
      rcases piece.opened (stored piece inside) nameable with ⟨tree, objects, opened⟩
      exact held opened.held
  | @object run bytes reader reference member input opened links =>
      rcases pieces _ member with ⟨piece, inside, rfl⟩
      rcases piece.opened (stored piece inside) nameable with ⟨tree, objects, found⟩
      rcases Run.listed_eq_ok.mp (found.listed backend owner lossless nameable) with
        ⟨bytes', reader', refs, input', opened', listed, same⟩
      cases input.symm.trans input'
      cases opened.symm.trans opened'
      rw [withFetch_run] at listed
      have inRefs : Key.object reference.digest ∈ refs.map (fun reference => .object reference.digest) :=
        List.mem_map.mpr ⟨reference, (objectRefs_lists listed reference).mpr links, rfl⟩
      rw [← same] at inRefs
      rcases List.mem_map.mp inRefs with ⟨other, inTree, digest⟩
      rcases found.ref_held inTree with ⟨bytes, holds, _⟩
      rw [digest] at holds
      exact held holds
  | @shard run kind index member small =>
      rcases pieces _ member with ⟨piece, inside, rfl⟩
      rcases piece.filters with ⟨_, filters, _⟩
      rcases filters kind index small with ⟨bytes, listed, _⟩
      exact held (stored piece inside _ listed)

/-- A collection of a store at rest that publishers and compactors have written is
exact, once every object has reached the grace age. -/
theorem collection_exact (codec : HeadsRoundTrip env) (lossless : env.toPrimitives.Lossless)
    (reached : Pool.Reachable (System.world env.toPrimitives backend faulty) (Call.body env)
      (Writing accepts) System.empty pool)
    (distinct : pool.state.HeadsDistinct env.toPrimitives backend)
    (nameable : pool.state.content (.object Fixed.zero) = none)
    (headed : pool.state.content (.head chainId) ≠ none) (keepHeads : Nat) (minAge : Time)
    (old : ∀ key entry, key.immutable = true → pool.state.lookup key = some entry →
      entry.modified + minAge ≤ pool.state.clock) :
    ∃ bytes head, pool.state.content (.head chainId) = some bytes ∧ Head.decode env bytes = .ok head ∧
      (collectGarbage env chainId keepHeads minAge false).Follows ((calm env.toPrimitives backend).step owner)
        (fun outcome after => (∃ report, outcome = .ok report) ∧
          Collected env backend owner chainId keepHeads minAge head pool.state after) pool.state := by
  have inv := (writing_sound codec lossless reached distinct).1
  have committed : pool.state.commits chainId ≠ [] := by
    intro nothing
    apply headed
    rw [inv.heads, nothing]
    rfl
  rcases inv.history chainId committed with ⟨manifest, bytes, history⟩
  have content : pool.state.content (.head chainId) = some bytes := by
    rw [inv.heads]
    exact history.last
  rcases history.copies codec with ⟨parent, encoded, copies⟩
  have decoded := decode_head codec encoded
  refine ⟨bytes, manifest.head parent, content, decoded, ?_⟩
  rcases Option.map_eq_some_iff.mp content with ⟨entry, found, rfl⟩
  have read : ((readHead env chainId).run (pool.state.replies env.toPrimitives backend owner)).2 =
      .ok (some (⟨entry.bytes, System.versionOf env.toPrimitives backend entry⟩, manifest.head parent)) := by
    refine readHead_run.mpr ⟨?_, decoded, history.head.2.2⟩
    show pool.state.readMutableBounded env.toPrimitives backend (.head chainId) maxHead = _
    unfold System.readMutableBounded
    rw [found]
    exact if_neg (Nat.not_lt_of_le history.head.2.1)
  exact collected_of_separate read
    (separate_current parent lossless nameable history.stored history.sized) (copies keepHeads)
    (fun key reaches => reaches_present parent lossless nameable history.stored reaches) old

end

/-- The third publication has staged a copy of the second head, which nothing refers to. -/
theorem chainPool_stored :
    chainPool.state.content (.object Fixed.zero) = none ∧ chainPool.state.content (.head 1) ≠ none ∧
    (chainPool.state.lookup (.object (chainEnv.sha256 secondHead.jsonBytes))).isSome = true ∧
    ∀ item ∈ chainPool.state.entries.entries, item.2.modified ≤ chainPool.state.clock := by
  decide +kernel

theorem collection_of_chain :
    (chainPool.state.lookup (.object (chainEnv.sha256 secondHead.jsonBytes))).isSome = true ∧
    ∃ bytes head, chainPool.state.content (.head 1) = some bytes ∧ Head.decode chainEnv bytes = .ok head ∧
      (collectGarbage chainEnv 1 1 0 false).Follows ((calm chainEnv.toPrimitives .memory).step (chainCall 2))
        (fun outcome after => (∃ report, outcome = .ok report) ∧
          Collected chainEnv .memory (chainCall 2) 1 1 0 head chainPool.state after) chainPool.state := by
  rcases chainPool_stored with ⟨nameable, headed, leftover, stamped⟩
  refine ⟨leftover, collection_exact chainEnv_roundTrip chainEnv_lossless
    (@chainPool_reachable (fun _ => True)) nofun nameable headed 1 0 ?_⟩
  intro key entry _ found
  exact stamped ⟨key, entry⟩ (AList.mem_lookup_iff.mp found)

end Fossil

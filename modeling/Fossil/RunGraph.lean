import Fossil.RunScan

/-! Scans and lookups of any object graph.

Nothing here assumes that the objects were written by a builder. A finished scan
has read every leaf and page of each partition and has checked their order; that
is what a lookup relies on, so the two agree. -/

namespace Fossil

section

variable {env : Primitives} {replies : ObjectRef → Result Bytes} {shard : Fin 16}

/-! What a decoded object is known to be. -/

theorem parseRecords_sound {expected : Option (Fin 16)} {count : Nat} {prior : Option Version}
    {bytes rest : Bytes} {records : List Record}
    (parsed : parseRecords env expected count prior bytes = .ok (records, rest)) :
    StrictlySorted Record.version records ∧
      (∀ last ∈ prior, ∀ record ∈ records, last < record.version) ∧
      ∀ record ∈ records, record.key ≠ [] ∧ ∀ shard ∈ expected, partition env record.key = shard := by
  induction count generalizing prior bytes records with
  | zero =>
      cases parsed
      exact ⟨.nil, by simp, by simp⟩
  | succ count ih =>
      rcases bind_eq_ok.mp parsed with ⟨⟨keyLen, _⟩, _, parsed⟩
      rcases bind_eq_ok.mp parsed with ⟨⟨key, _⟩, _, parsed⟩
      rcases bind_eq_ok.mp parsed with ⟨⟨block, _⟩, _, parsed⟩
      rcases bind_eq_ok.mp parsed with ⟨⟨valueLen, _⟩, _, parsed⟩
      rcases bind_eq_ok.mp parsed with ⟨⟨value, _⟩, _, parsed⟩
      rcases guard_eq_ok.mp parsed with ⟨valid, parsed⟩
      rcases guard_eq_ok.mp parsed with ⟨ordered, parsed⟩
      rcases bind_eq_ok.mp parsed with ⟨⟨more, _⟩, later, done⟩
      cases done
      rcases ih later with ⟨sorted, above, routed⟩
      have first : ∀ last ∈ prior, last < version key block := not_above_iff.mp ordered
      refine ⟨.cons (above _ rfl) sorted, ?_, ?_⟩
      · intro last known record member
        rcases List.mem_cons.mp member with rfl | inside
        · exact first last known
        · exact (first last known).trans (above _ rfl record inside)
      · intro record member
        rcases List.mem_cons.mp member with rfl | inside
        · refine ⟨fun empty => valid (.inl empty), ?_⟩
          intro place wanted
          by_contra misrouted
          exact valid (.inr ⟨place, wanted, misrouted⟩)
        · exact routed record inside

theorem decodeDataPage_sound {reference : ObjectRef} {bytes : Bytes} {records : List Record}
    (decoded : decodeDataPage env reference bytes shard = .ok records) :
    StrictlySorted Record.version records ∧
      ∀ record ∈ records, record.key ≠ [] ∧ partition env record.key = shard := by
  rcases bind_eq_ok.mp decoded with ⟨payload, _, parsed⟩
  rcases guard_eq_ok.mp parsed with ⟨_, parsed⟩
  rcases guard_eq_ok.mp parsed with ⟨_, parsed⟩
  rcases bind_eq_ok.mp parsed with ⟨⟨found, rest⟩, parsed, checked⟩
  rcases guard_eq_ok.mp checked with ⟨_, done⟩
  cases done
  rcases parseRecords_sound parsed with ⟨sorted, _, routed⟩
  exact ⟨sorted, fun record member => ⟨(routed record member).1, (routed record member).2 shard rfl⟩⟩

theorem decodeIndex_front {reference : ObjectRef} {bytes magic : Bytes} {fences : List Fence}
    (decoded : decodeIndex env reference bytes shard magic = .ok fences) : magic <+: bytes := by
  rcases guard_eq_ok.mp decoded with ⟨_, decoded⟩
  rcases bind_eq_ok.mp decoded with ⟨_, _, decoded⟩
  rcases guard_eq_ok.mp decoded with ⟨valid, _⟩
  simp only [not_or, not_not] at valid
  rw [← valid.2.2.1]
  exact List.take_prefix _ _

theorem not_internal_of_leaf {reference : ObjectRef} {bytes : Bytes} {fences : List Fence}
    (decoded : decodeIndex env reference bytes shard indexMagic = .ok fences) :
    ¬ internalMagic <+: bytes := by
  intro internal
  have same : internalMagic = indexMagic := by
    rw [List.prefix_iff_eq_take.mp internal, List.prefix_iff_eq_take.mp (decodeIndex_front decoded)]
    rfl
  exact absurd same (by decide)

/-! Pages, leaves and roots as the replies have them. -/

/-- A page that was read behind its fence. -/
structure PageRead where
  fence : Fence
  records : List Record

variable (env replies shard) in
/-- Fetching the page behind the fence gives these records, the first one at the fence. -/
structure PageRead.Found (page : PageRead) : Prop where
  valid : ¬ invalidDataRef page.fence.data = true
  decoded : ∃ bytes, replies page.fence.data = .ok bytes ∧
    decodeDataPage env page.fence.data bytes shard = .ok page.records
  entry : page.records.head?.map Record.version = some page.fence.version

variable (env replies shard) in
/-- Fetching the index behind a reference gives these fences. -/
structure IndexFound (magic : Bytes) (reference : ObjectRef) (fences : List Fence) : Prop where
  valid : validateIndexRef reference = .ok ()
  decoded : ∃ bytes, replies reference = .ok bytes ∧
    decodeIndex env reference bytes shard magic = .ok fences

variable (env replies shard) in
/-- The leaf behind a parent entry, starting where the entry says. -/
structure LeafFound (parent : Fence) (fences : List Fence) : Prop where
  index : IndexFound env replies shard indexMagic parent.data fences
  entry : fences.head?.map Fence.version = some parent.version

variable (env replies shard) in
/-- The leaves below a partition's root read so far, and the parent entries left. -/
inductive Entered (root : ObjectRef) : List (List Fence) → List Fence → Prop where
  | empty (unused : root = .default) : Entered root [] []
  | single {fences : List Fence} (occupied : root ≠ .default)
      (index : IndexFound env replies shard indexMagic root fences) : Entered root [fences] []
  | several {used rest : List Fence} {leaves : List (List Fence)} (occupied : root ≠ .default)
      (index : IndexFound env replies shard internalMagic root (used ++ rest))
      (found : List.Forall₂ (LeafFound env replies shard) used leaves) : Entered root leaves rest

theorem PageRead.Found.routed {page : PageRead} (found : page.Found env replies shard) :
    ∀ record ∈ page.records, record.key ≠ [] ∧ partition env record.key = shard := by
  rcases found.decoded with ⟨bytes, _, decoded⟩
  exact (decodeDataPage_sound decoded).2

theorem PageRead.Found.head {page : PageRead} (found : page.Found env replies shard) :
    ∃ first rest, page.records = first :: rest ∧ first.version = page.fence.version := by
  have entry := found.entry
  cases records : page.records with
  | nil =>
      rw [records] at entry
      cases entry
  | cons first rest =>
      rw [records] at entry
      exact ⟨first, rest, rfl, Option.some.inj entry⟩

theorem chunked_read {pages : List PageRead} (found : ∀ page ∈ pages, page.Found env replies shard)
    (sorted : StrictlySorted Record.version (pages.flatMap PageRead.records)) :
    Chunked Record.version (fun page => page.fence.version) PageRead.records pages :=
  ⟨sorted, fun page member => (found page member).head⟩

/-! Lookups. -/

/-- A leaf whose pages were all read answers as a search of their records. -/
theorem lookupLeaf_read {pages : List PageRead} {leafRef : ObjectRef} {leafBytes : Bytes}
    {expectedStart : Option Version} {key : Bytes} {block : UInt64}
    (decoded : decodeIndex env leafRef leafBytes shard indexMagic = .ok (pages.map PageRead.fence))
    (found : ∀ page ∈ pages, page.Found env replies shard)
    (sorted : StrictlySorted Record.version (pages.flatMap PageRead.records))
    (starts : ∀ start ∈ expectedStart, (pages.map PageRead.fence).head?.map Fence.version = some start) :
    ((lookupLeaf env shard key block leafRef leafBytes expectedStart).run replies).2 =
      .ok (floorValue key block (pages.flatMap PageRead.records)) := by
  have entered : ¬ ∃ start ∈ expectedStart,
      (pages.map PageRead.fence).head?.map Fence.version ≠ some start := by
    rintro ⟨start, expected, differs⟩
    exact differs (starts start expected)
  have chunks := chunked_read found sorted
  have split : predecessor Record.version (version key block) (pages.flatMap PageRead.records) = _ :=
    chunks.predecessor
  unfold lookupLeaf
  simp only [decoded, Prog.bind_eq, Prog.liftM_eq, Prog.ofExcept_ok, Prog.ret_bind, if_neg entered,
    floorEntry_eq, predecessor_map, floorValue, split]
  cases landed : predecessor (fun page : PageRead => page.fence.version) (version key block) pages with
  | none => rfl
  | some page =>
      have inside := ((predecessor_eq_some chunks.first_sorted page).mp landed).1
      have here := found page inside
      rcases here.decoded with ⟨bytes, fetched, records⟩
      simp only [Option.map_some, Option.bind_some, if_neg here.valid]
      apply Prog.run_bind_eq_ok.mpr
      refine ⟨bytes, by rw [fetchAs, Prog.run_request, fetched]; rfl, ?_⟩
      rw [records, Prog.ofExcept_ok, Prog.ret_bind, if_neg (not_not.mpr here.entry)]
      cases predecessor Record.version (version key block) page.records with
      | none => rfl
      | some candidate => rfl

/-- Pages split by the leaves they stand in. -/
theorem exists_groups {pages : List PageRead} {leaves : List (List Fence)}
    (fences : pages.map PageRead.fence = leaves.flatten) :
    ∃ groups : List (List PageRead), groups.flatten = pages ∧
      groups.map (List.map PageRead.fence) = leaves := by
  induction leaves generalizing pages with
  | nil =>
      rw [List.flatten_nil, List.map_eq_nil_iff] at fences
      exact ⟨[], fences.symm, rfl⟩
  | cons leaf leaves ih =>
      rw [List.flatten_cons] at fences
      rcases List.map_eq_append_iff.mp fences with ⟨front, back, rfl, first, rest⟩
      rcases ih rest with ⟨groups, whole, mapped⟩
      exact ⟨front :: groups, by rw [List.flatten_cons, whole], by rw [List.map_cons, first, mapped]⟩

/-- A leaf with its parent entry and the pages read from it. -/
structure LeafRead where
  parent : Fence
  pages : List PageRead

def LeafRead.records (leaf : LeafRead) : List Record := leaf.pages.flatMap PageRead.records

/-- Parents, leaves and pages lined up. -/
theorem exists_leaves {used : List Fence} {groups : List (List PageRead)}
    (found : List.Forall₂ (LeafFound env replies shard) used (groups.map (List.map PageRead.fence))) :
    ∃ leaves : List LeafRead, leaves.map LeafRead.parent = used ∧ leaves.map LeafRead.pages = groups ∧
      ∀ leaf ∈ leaves, LeafFound env replies shard leaf.parent (leaf.pages.map PageRead.fence) := by
  induction groups generalizing used with
  | nil =>
      cases found
      exact ⟨[], rfl, rfl, by simp⟩
  | cons group groups ih =>
      cases found with
      | cons first rest =>
          rcases ih rest with ⟨leaves, parents, pages, all⟩
          refine ⟨⟨_, group⟩ :: leaves, by rw [List.map_cons, parents], by rw [List.map_cons, pages], ?_⟩
          intro leaf member
          rcases List.mem_cons.mp member with rfl | inside
          · exact first
          · exact all leaf inside

theorem chunked_leafReads {leaves : List LeafRead}
    (entered : ∀ leaf ∈ leaves, LeafFound env replies shard leaf.parent (leaf.pages.map PageRead.fence))
    (found : ∀ leaf ∈ leaves, ∀ page ∈ leaf.pages, page.Found env replies shard)
    (sorted : StrictlySorted Record.version (leaves.flatMap LeafRead.records)) :
    Chunked Record.version (fun leaf => leaf.parent.version) LeafRead.records leaves := by
  refine ⟨sorted, ?_⟩
  intro leaf member
  have entry := (entered leaf member).entry
  have pagesFound := found leaf member
  unfold LeafRead.records
  cases pages : leaf.pages with
  | nil =>
      rw [pages] at entry
      cases entry
  | cons page pages' =>
      rw [pages] at entry pagesFound
      rcases (pagesFound page List.mem_cons_self).head with ⟨first, rest, shape, starts⟩
      refine ⟨first, rest ++ pages'.flatMap PageRead.records, ?_, ?_⟩
      · rw [List.flatMap_cons, shape, List.cons_append]
      · rw [starts]
        exact Option.some.inj entry

/-- A partition that was read to its end answers as a search of its records. -/
theorem lookup_read {reader : RunReader} {key : Bytes} {block : UInt64} {leaves : List (List Fence)}
    {pages : List PageRead} (nonempty : key ≠ [])
    (entered : Entered env replies (partition env key) (reader.index (partition env key)) leaves [])
    (fences : pages.map PageRead.fence = leaves.flatten)
    (found : ∀ page ∈ pages, page.Found env replies (partition env key))
    (sorted : StrictlySorted Record.version (pages.flatMap PageRead.records)) :
    ((reader.lookup env key block).run replies).2 =
      .ok (floorValue key block (pages.flatMap PageRead.records)) := by
  unfold RunReader.lookup
  simp only [if_neg nonempty, Prog.bind_eq, Prog.liftM_eq]
  cases entered with
  | empty unused =>
      rw [if_pos unused]
      rw [List.flatten_nil, List.map_eq_nil_iff] at fences
      rw [fences]
      rfl
  | @single leaf occupied index =>
      rcases index.decoded with ⟨bytes, fetched, decoded⟩
      rw [List.flatten_singleton] at fences
      rw [← fences] at decoded
      rw [if_neg occupied, index.valid, Prog.ofExcept_ok, Prog.ret_bind]
      apply Prog.run_bind_eq_ok.mpr
      refine ⟨bytes, by rw [fetchAs, Prog.run_request, fetched]; rfl, ?_⟩
      rw [if_neg (not_internal_of_leaf decoded)]
      exact lookupLeaf_read decoded found sorted (by simp)
  | @several used _ _ occupied index leavesFound =>
      rcases index.decoded with ⟨bytes, fetched, decoded⟩
      rw [List.append_nil] at decoded
      rcases exists_groups fences with ⟨groups, rfl, rfl⟩
      rcases exists_leaves leavesFound with ⟨reads, rfl, rfl, all⟩
      have whole : (reads.map LeafRead.pages).flatten.flatMap PageRead.records =
          reads.flatMap LeafRead.records := by
        rw [← List.flatMap_def, List.flatMap_assoc]
        rfl
      have pagesFound : ∀ leaf ∈ reads, ∀ page ∈ leaf.pages, page.Found env replies (partition env key) :=
        fun leaf inside page member => found page
          (List.mem_flatten.mpr ⟨_, List.mem_map_of_mem inside, member⟩)
      rw [whole] at sorted ⊢
      have chunks := chunked_leafReads all pagesFound sorted
      have split : predecessor Record.version (version key block) (reads.flatMap LeafRead.records) = _ :=
        chunks.predecessor
      rw [if_neg occupied, index.valid, Prog.ofExcept_ok, Prog.ret_bind]
      apply Prog.run_bind_eq_ok.mpr
      refine ⟨bytes, by rw [fetchAs, Prog.run_request, fetched]; rfl, ?_⟩
      simp only [if_pos (decodeIndex_front decoded), decoded, Prog.ofExcept_ok, Prog.ret_bind,
        floorEntry_eq, predecessor_map, floorValue, split]
      cases landed : predecessor (fun leaf : LeafRead => leaf.parent.version) (version key block) reads with
      | none => rfl
      | some leaf =>
          have inside := ((predecessor_eq_some chunks.first_sorted leaf).mp landed).1
          rcases all leaf inside with ⟨⟨valid, leafBytes, fetchedLeaf, decodedLeaf⟩, entry⟩
          simp only [Option.map_some, Option.bind_some, valid, Prog.ofExcept_ok, Prog.ret_bind]
          apply Prog.run_bind_eq_ok.mpr
          refine ⟨leafBytes, by rw [fetchAs, Prog.run_request, fetchedLeaf]; rfl, ?_⟩
          apply lookupLeaf_read decodedLeaf (pagesFound leaf inside)
          · exact chunks.content_sorted inside
          · intro start expected
            cases expected
            exact entry

/-! What a cursor has read. -/

variable (env replies shard) in
/-- A started cursor that has given these records: the pages it read, the leaves
they stand in and what is left of both. -/
structure PartitionCursor.Walked (root : ObjectRef) (cursor : PartitionCursor) (given : List Record)
    (pages : List PageRead) (leaves : List (List Fence)) : Prop where
  initialized : cursor.initialized = true
  entered : Entered env replies shard root leaves (cursor.parents.drop cursor.parentPos)
  fences : pages.map PageRead.fence ++ cursor.leaf.drop cursor.fencePos = leaves.flatten
  bound : cursor.fencePos ≤ cursor.leaf.length
  found : ∀ page ∈ pages, page.Found env replies shard
  records : pages.flatMap PageRead.records = given ++ cursor.page
  sorted : StrictlySorted Record.version (given ++ cursor.page)
  previous : cursor.previous = given.getLast?.map Record.version

variable (env replies shard) in
/-- A cursor, started or not, that has given these records. -/
def PartitionCursor.Traced (root : ObjectRef) (cursor : PartitionCursor) (given : List Record) : Prop :=
  (cursor = .new root ∧ given = []) ∨ ∃ pages leaves, cursor.Walked env replies shard root given pages leaves

/-- Nothing is left in or behind the cursor. -/
structure PartitionCursor.Spent (cursor : PartitionCursor) : Prop where
  initialized : cursor.initialized = true
  page : cursor.page = []
  leaf : cursor.fencePos = cursor.leaf.length
  parents : cursor.parents[cursor.parentPos]? = none

variable {root : ObjectRef} {cursor after : PartitionCursor} {given : List Record}

theorem PartitionCursor.Traced.openRoot (traced : cursor.Traced env replies shard root given)
    (opened : ((cursor.openRoot env shard).run replies).2 = .ok after) :
    after.page = cursor.page ∧ after.previous = cursor.previous ∧ (cursor.initialized = true → after = cursor) ∧
      ∃ pages leaves, after.Walked env replies shard root given pages leaves := by
  unfold PartitionCursor.openRoot at opened
  rcases traced with ⟨rfl, rfl⟩ | ⟨pages, leaves, walked⟩
  · have fresh : ¬ (PartitionCursor.new root).initialized = true := Bool.false_ne_true
    simp only [if_neg fresh, Prog.bind_eq, Prog.liftM_eq] at opened
    by_cases unused : root = .default
    · replace opened : ((Prog.ret { PartitionCursor.new root with initialized := true } :
          Codec PartitionCursor).run replies).2 = .ok after := by
        rw [← opened]
        exact congrArg (fun prog => (Prog.run replies prog).2) (if_pos unused).symm
      cases opened
      refine ⟨rfl, rfl, fun started => absurd started fresh, [], [], ?_⟩
      exact ⟨rfl, .empty unused, rfl, Nat.le_refl _, by simp, rfl, .nil, rfl⟩
    · have occupied : ¬ (PartitionCursor.new root).root = .default := unused
      rw [if_neg occupied] at opened
      rcases Prog.run_bind_eq_ok.mp opened with ⟨_, valid, opened⟩
      rw [Prog.run_ofExcept] at valid
      rcases Prog.run_bind_eq_ok.mp opened with ⟨bytes, fetched, opened⟩
      rw [fetchAs, Prog.run_request, context_eq_ok] at fetched
      split at opened
      · rcases Prog.run_bind_eq_ok.mp opened with ⟨parents, decoded, done⟩
        rw [Prog.run_ofExcept] at decoded
        cases done
        have index : IndexFound env replies shard internalMagic root ([] ++ parents) :=
          ⟨valid, bytes, fetched, decoded⟩
        refine ⟨rfl, rfl, fun started => absurd started fresh, [], [], ?_⟩
        exact ⟨rfl, .several unused index .nil, rfl, Nat.le_refl _, by simp, rfl, .nil, rfl⟩
      · rcases Prog.run_bind_eq_ok.mp opened with ⟨leaf, decoded, done⟩
        rw [Prog.run_ofExcept] at decoded
        cases done
        refine ⟨rfl, rfl, fun started => absurd started fresh, [], [leaf], ?_⟩
        exact ⟨rfl, .single unused ⟨valid, bytes, fetched, decoded⟩, by simp [PartitionCursor.new],
          Nat.zero_le _, by simp, rfl, .nil, rfl⟩
  · rw [if_pos walked.initialized] at opened
    cases opened
    exact ⟨rfl, rfl, fun _ => rfl, pages, leaves, walked⟩

theorem Entered.next {leaves : List (List Fence)} {parent : Fence} {rest fences : List Fence}
    (entered : Entered env replies shard root leaves (parent :: rest))
    (found : LeafFound env replies shard parent fences) :
    Entered env replies shard root (leaves ++ [fences]) rest := by
  generalize list : parent :: rest = left at entered
  cases entered with
  | empty => cases list
  | single => cases list
  | @several used _ _ occupied index before =>
      subst list
      rw [List.append_cons] at index
      exact .several occupied index (List.rel_append before (.cons found .nil))

/-- Moving on to the next leaf, if the current one is used up. -/
theorem PartitionCursor.Walked.advanceLeaf {pages : List PageRead} {leaves : List (List Fence)}
    (walked : cursor.Walked env replies shard root given pages leaves)
    (advanced : ((cursor.advanceLeaf env shard).run replies).2 = .ok after) :
    after.page = cursor.page ∧ after.previous = cursor.previous ∧
      (∃ leaves', after.Walked env replies shard root given pages leaves') ∧
      (after.leaf[after.fencePos]? = none → after.fencePos = after.leaf.length ∧
        after.parents[after.parentPos]? = none) := by
  unfold PartitionCursor.advanceLeaf at advanced
  by_cases more : cursor.fencePos = cursor.leaf.length
  · rw [if_neg (fun differs => differs more)] at advanced
    have used : cursor.leaf.drop cursor.fencePos = [] := by rw [more, List.drop_length]
    have fences := walked.fences
    rw [used, List.append_nil] at fences
    cases next : cursor.parents[cursor.parentPos]? with
    | none =>
        simp only [next] at advanced
        cases advanced
        refine ⟨rfl, rfl, ⟨leaves, walked.initialized, walked.entered, ?_, Nat.le_refl _, walked.found,
          walked.records, walked.sorted, walked.previous⟩, fun _ => ⟨rfl, next⟩⟩
        simpa using fences
    | some parent =>
        simp only [next, Prog.bind_eq, Prog.liftM_eq] at advanced
        rcases Prog.run_bind_eq_ok.mp advanced with ⟨_, valid, advanced⟩
        rw [Prog.run_ofExcept] at valid
        rcases Prog.run_bind_eq_ok.mp advanced with ⟨bytes, fetched, advanced⟩
        rw [fetchAs, Prog.run_request, context_eq_ok] at fetched
        rcases Prog.run_bind_eq_ok.mp advanced with ⟨leaf, decoded, advanced⟩
        rw [Prog.run_ofExcept] at decoded
        rcases Prog.run_guard_eq_ok.mp advanced with ⟨entry, done⟩
        rw [not_not] at entry
        cases done
        have entered := walked.entered
        rcases List.getElem?_eq_some_iff.mp next with ⟨inside, same⟩
        rw [List.drop_eq_getElem_cons inside, same] at entered
        refine ⟨rfl, rfl, ⟨leaves ++ [leaf], walked.initialized,
          entered.next ⟨⟨valid, bytes, fetched, decoded⟩, entry⟩, ?_, Nat.zero_le _, walked.found,
          walked.records, walked.sorted, walked.previous⟩, ?_⟩
        · simp [fences]
        · intro none
          cases leaf with
          | nil => cases entry
          | cons first rest => cases none
  · rw [if_pos more] at advanced
    cases advanced
    refine ⟨rfl, rfl, ⟨leaves, walked⟩, ?_⟩
    intro none
    have beyond := List.getElem?_eq_none_iff.mp none
    exact absurd (Nat.le_antisymm walked.bound beyond) more

/-- Appending a page whose first record is above all earlier ones. -/
theorem sorted_append_page {page : PageRead} (sorted : StrictlySorted Record.version given)
    (found : page.Found env replies shard)
    (above : ∀ last ∈ given.getLast?.map Record.version, last < page.fence.version) :
    StrictlySorted Record.version (given ++ page.records) := by
  rcases found.decoded with ⟨bytes, _, decoded⟩
  have inner := (decodeDataPage_sound decoded).1
  refine List.pairwise_append.mpr ⟨sorted, inner, ?_⟩
  intro left inLeft right inRight
  rcases found.head with ⟨first, rest, shape, starts⟩
  have low : left.version < first.version := by
    rw [starts]
    rcases List.eq_nil_or_concat given with nothing | ⟨front, last, whole⟩
    · rw [nothing] at inLeft
      cases inLeft
    · rw [List.concat_eq_append] at whole
      subst whole
      have final := above last.version (by simp)
      rcases List.mem_append.mp inLeft with old | new
      · exact ((List.pairwise_append.mp sorted).2.2 left old last (List.mem_singleton.mpr rfl)).trans final
      · rw [List.mem_singleton.mp new]
        exact final
  rw [shape] at inner inRight
  rcases List.mem_cons.mp inRight with rfl | later
  · exact low
  · exact low.trans ((List.pairwise_cons.mp inner).1 right later)

theorem PartitionCursor.Walked.loadPage {pages : List PageRead} {leaves : List (List Fence)} {fence : Fence}
    (walked : cursor.Walked env replies shard root given pages leaves) (used : cursor.page = [])
    (next : cursor.leaf[cursor.fencePos]? = some fence)
    (loaded : ((cursor.loadPage env shard fence).run replies).2 = .ok after) :
    (∃ pages', after.Walked env replies shard root given pages' leaves) ∧ after.page ≠ [] ∧
      ∀ last ∈ cursor.previous, ∀ record ∈ after.page.head?, last < record.version := by
  unfold PartitionCursor.loadPage at loaded
  simp only [Prog.bind_eq, Prog.liftM_eq] at loaded
  rcases Prog.run_guard_eq_ok.mp loaded with ⟨_, loaded⟩
  rcases Prog.run_guard_eq_ok.mp loaded with ⟨valid, loaded⟩
  rcases Prog.run_bind_eq_ok.mp loaded with ⟨bytes, fetched, loaded⟩
  rw [fetchAs, Prog.run_request, context_eq_ok] at fetched
  rcases Prog.run_bind_eq_ok.mp loaded with ⟨records, decoded, loaded⟩
  rw [Prog.run_ofExcept] at decoded
  rcases Prog.run_guard_eq_ok.mp loaded with ⟨entry, loaded⟩
  rw [not_not] at entry
  rcases Prog.run_guard_eq_ok.mp loaded with ⟨ordered, done⟩
  cases done
  have here : PageRead.Found env replies shard ⟨fence, records⟩ := ⟨valid, ⟨bytes, fetched, decoded⟩, entry⟩
  have above : ∀ last ∈ cursor.previous, last < fence.version := not_above_iff.mp ordered
  have sorted := walked.sorted
  have whole := walked.records
  have fences := walked.fences
  rcases List.getElem?_eq_some_iff.mp next with ⟨inside, same⟩
  rw [used, List.append_nil] at sorted whole
  rw [List.drop_eq_getElem_cons inside, same] at fences
  rcases here.head with ⟨first, rest, shape, starts⟩
  simp only at shape starts
  refine ⟨⟨pages ++ [⟨fence, records⟩], ?_⟩, by simp [shape], ?_⟩
  · refine ⟨walked.initialized, walked.entered, ?_, inside, ?_, ?_, ?_, walked.previous⟩
    · simpa using fences
    · intro page member
      rcases List.mem_append.mp member with old | new
      · exact walked.found page old
      · rw [List.mem_singleton.mp new]
        exact here
    · simp [whole]
    · rw [walked.previous] at above
      exact sorted_append_page sorted here above
  · intro last known record front
    simp only [shape, List.head?_cons, Option.mem_def, Option.some.injEq] at front
    rw [← front, starts]
    exact above last known

/-- A cursor made ready has given no more, and is spent if it shows nothing. -/
theorem PartitionCursor.Traced.ready (traced : cursor.Traced env replies shard root given)
    (readied : ((cursor.ready env shard).run replies).2 = .ok after) :
    (∃ pages leaves, after.Walked env replies shard root given pages leaves) ∧
      (after.page = [] → after.Spent) ∧ (cursor.Spent → after.page = []) ∧
      (cursor.page ≠ [] → after.page = cursor.page) ∧
      (cursor.page = [] → ∀ last ∈ cursor.previous, ∀ record ∈ after.page.head?, last < record.version) := by
  rcases Prog.run_bind_eq_ok.mp readied with ⟨started, opened, readied⟩
  rcases traced.openRoot opened with ⟨samePage, samePrevious, unchanged, pages, leaves, walked⟩
  by_cases empty : started.page = []
  · rw [if_neg (fun nonempty => nonempty empty)] at readied
    rcases Prog.run_bind_eq_ok.mp readied with ⟨placed, advanced, readied⟩
    rcases walked.advanceLeaf advanced with ⟨placedPage, placedPrevious, ⟨leaves', placedWalked⟩, exhausted⟩
    have placedEmpty : placed.page = [] := placedPage.trans empty
    have wasEmpty : cursor.page = [] := samePage.symm.trans empty
    cases next : placed.leaf[placed.fencePos]? with
    | none =>
        simp only [next] at readied
        cases readied
        refine ⟨⟨pages, leaves', placedWalked⟩, fun _ => ?_, fun _ => placedEmpty,
          fun nonempty => absurd wasEmpty nonempty, ?_⟩
        · exact ⟨placedWalked.initialized, placedEmpty, (exhausted next).1, (exhausted next).2⟩
        · intro _ last _ record front
          rw [placedEmpty] at front
          cases front
    | some fence =>
        simp only [next] at readied
        rcases placedWalked.loadPage placedEmpty next readied with ⟨⟨pages', final⟩, nonempty, above⟩
        refine ⟨⟨pages', leaves', final⟩, fun none => absurd none nonempty, ?_,
          fun wasNonempty => absurd wasEmpty wasNonempty, ?_⟩
        · intro spent
          have same := unchanged spent.initialized
          subst same
          unfold PartitionCursor.advanceLeaf at advanced
          simp only [spent.leaf, ne_eq, not_true_eq_false, if_false, spent.parents] at advanced
          cases advanced
          cases next
        · intro _ last known
          rw [← samePrevious, ← placedPrevious] at known
          exact above last known
  · rw [if_pos empty] at readied
    cases readied
    refine ⟨⟨pages, leaves, walked⟩, fun none => absurd none empty, ?_, fun _ => samePage, ?_⟩
    · intro spent
      rw [samePage]
      exact spent.page
    · intro wasEmpty
      exact absurd (samePage.trans wasEmpty) empty

/-- Taking the front record. -/
theorem PartitionCursor.Walked.pop {pages : List PageRead} {leaves : List (List Fence)} {record : Record}
    {rest : List Record} (walked : cursor.Walked env replies shard root given pages leaves)
    (front : cursor.page = record :: rest) :
    (cursor.pop record).Walked env replies shard root (given ++ [record]) pages leaves := by
  have records := walked.records
  have sorted := walked.sorted
  rw [front] at records sorted
  refine ⟨walked.initialized, walked.entered, walked.fences, walked.bound, walked.found, ?_, ?_, ?_⟩
  · simpa [PartitionCursor.pop, front] using records
  · simpa [PartitionCursor.pop, front] using sorted
  · simp [PartitionCursor.pop]

theorem PartitionCursor.Walked.routed {pages : List PageRead} {leaves : List (List Fence)}
    (walked : cursor.Walked env replies shard root given pages leaves) :
    ∀ record ∈ given ++ cursor.page, record.key ≠ [] ∧ partition env record.key = shard := by
  intro record member
  rw [← walked.records] at member
  rcases List.mem_flatMap.mp member with ⟨page, inside, here⟩
  exact (walked.found page inside).routed record here

/-! The scanner. -/

/-- What a cursor shows next is above the last record that was given. -/
structure PartitionCursor.Clear (last : Version) (cursor : PartitionCursor) (given : List Record) : Prop where
  front : ∀ record ∈ cursor.page.head?, last < record.version
  empty : cursor.page = [] → cursor.Spent ∨ given.getLast?.map Record.version = some last

variable (env replies) in
/-- A scanner that has given these records, each partition its own part of them. -/
structure RunScanner.Traces (reader : RunReader) (scanner : RunScanner) (out : List Record)
    (given : Fin 16 → List Record) : Prop where
  intact : scanner.failed = false
  shards : scanner.cursors.map Prod.fst = List.finRange 16
  traced : ∀ cursor ∈ scanner.cursors,
    cursor.2.Traced env replies cursor.1 (reader.index cursor.1) (given cursor.1)
  clear : ∀ last ∈ out.getLast?.map Record.version, ∀ cursor ∈ scanner.cursors,
    cursor.2.Clear last (given cursor.1)
  perm : out.Perm ((List.finRange 16).flatMap given)
  sorted : StrictlySorted Record.version out

theorem RunReader.scanner_traces (reader : RunReader) :
    reader.scanner.Traces env replies reader [] (fun _ => []) := by
  refine ⟨rfl, ?_, ?_, ?_, ?_, .nil⟩
  · rw [RunReader.scanner, List.map_map]
    exact List.map_id _
  · intro cursor member
    rcases List.mem_map.mp member with ⟨shard, _, rfl⟩
    exact .inl ⟨rfl, rfl⟩
  · intro last none
    cases none
  · rw [List.flatMap_eq_nil_iff.mpr (fun _ _ => rfl)]

theorem readyAll_run {cursors filled : List (Fin 16 × PartitionCursor)}
    (readied : ((readyAll env cursors).run replies).2 = .ok filled) :
    List.Forall₂ (fun cursor after => after.1 = cursor.1 ∧
      ((cursor.2.ready env cursor.1).run replies).2 = .ok after.2) cursors filled := by
  induction cursors generalizing filled with
  | nil =>
      cases readied
      exact .nil
  | cons cursor cursors ih =>
      rcases Prog.run_bind_eq_ok.mp readied with ⟨first, ready, readied⟩
      rcases Prog.run_bind_eq_ok.mp readied with ⟨others, rest, done⟩
      cases done
      exact .cons ⟨rfl, ready⟩ (ih rest)

variable (env replies) in
/-- All cursors show their next record, or are spent. -/
structure Filled (reader : RunReader) (cursors : List (Fin 16 × PartitionCursor)) (out : List Record)
    (given : Fin 16 → List Record) : Prop where
  shards : cursors.map Prod.fst = List.finRange 16
  walked : ∀ cursor ∈ cursors, ∃ pages leaves,
    cursor.2.Walked env replies cursor.1 (reader.index cursor.1) (given cursor.1) pages leaves
  spent : ∀ cursor ∈ cursors, cursor.2.page = [] → cursor.2.Spent
  front : ∀ last ∈ out.getLast?.map Record.version, ∀ cursor ∈ cursors,
    ∀ record ∈ cursor.2.page.head?, last < record.version

theorem RunScanner.Traces.filled {reader : RunReader} {scanner : RunScanner} {out : List Record}
    {given : Fin 16 → List Record} (traces : scanner.Traces env replies reader out given)
    {filled : List (Fin 16 × PartitionCursor)}
    (readied : ((readyAll env scanner.cursors).run replies).2 = .ok filled) :
    Filled env replies reader filled out given := by
  have each := readyAll_run readied
  have shards : filled.map Prod.fst = scanner.cursors.map Prod.fst := by
    symm
    rw [← List.forall₂_eq_eq_eq, List.forall₂_map_left_iff, List.forall₂_map_right_iff]
    exact each.imp (fun _ _ holds => holds.1.symm)
  have step : ∀ after ∈ filled, ∃ cursor ∈ scanner.cursors, after.1 = cursor.1 ∧
      ((cursor.2.ready env cursor.1).run replies).2 = .ok after.2 := by
    intro after member
    rcases List.getElem?_of_mem member with ⟨index, found⟩
    rcases forall₂_getElem? each found with ⟨cursor, here, holds⟩
    exact ⟨cursor, List.mem_of_getElem? here, holds⟩
  refine ⟨shards.trans traces.shards, ?_, ?_, ?_⟩
  · intro after member
    rcases step after member with ⟨cursor, inside, same, ready⟩
    rw [same]
    exact ((traces.traced cursor inside).ready ready).1
  · intro after member
    rcases step after member with ⟨cursor, inside, same, ready⟩
    exact ((traces.traced cursor inside).ready ready).2.1
  · intro last known after member record shown
    rcases step after member with ⟨cursor, inside, same, ready⟩
    have traced := traces.traced cursor inside
    have clear := traces.clear last known cursor inside
    rcases traced.ready ready with ⟨_, _, remains, kept, above⟩
    by_cases empty : cursor.2.page = []
    · rcases clear.empty empty with spent | popped
      · rw [remains spent] at shown
        cases shown
      · have previous : cursor.2.previous = some last := by
          rcases traced with ⟨_, nothing⟩ | ⟨pages, leaves, walked⟩
          · rw [nothing] at popped
            cases popped
          · rw [walked.previous, popped]
        exact above empty last previous record shown
    · rw [kept empty] at shown
      exact clear.front record shown

theorem perm_flatMap_update {ι : Type} [DecidableEq ι] {bins : List ι} (given : ι → List Record)
    (place : ι) (record : Record) (nodup : bins.Nodup) (member : place ∈ bins) :
    (bins.flatMap given ++ [record]).Perm
      (bins.flatMap (Function.update given place (given place ++ [record]))) := by
  induction bins with
  | nil => cases member
  | cons bin bins ih =>
      rcases List.nodup_cons.mp nodup with ⟨fresh, rest⟩
      rw [List.flatMap_cons, List.flatMap_cons]
      by_cases here : bin = place
      · subst here
        have others : bins.flatMap (Function.update given bin (given bin ++ [record])) =
            bins.flatMap given := by
          apply List.flatMap_congr
          intro other inside
          rw [Function.update_of_ne]
          rintro rfl
          exact fresh inside
        rw [Function.update_self, others, List.append_assoc, List.append_assoc]
        exact List.perm_append_comm.append_left _
      · rw [Function.update_of_ne here, List.append_assoc]
        have inside := (List.mem_cons.mp member).resolve_left (fun same => here same.symm)
        exact (ih rest inside).append_left _

/-- One item of a list changed: the changed one, or one in another place. -/
theorem mem_modify {α : Type} {items : List α} {index : Nat} {change : α → α} {item : α}
    (member : item ∈ items.modify index change) :
    (∃ old, items[index]? = some old ∧ item = change old) ∨ ∃ place ≠ index, items[place]? = some item := by
  rcases List.getElem?_of_mem member with ⟨place, found⟩
  by_cases here : index = place
  · subst here
    rw [List.getElem?_modify_eq] at found
    rcases Option.map_eq_some_iff.mp found with ⟨old, old_eq, rfl⟩
    exact .inl ⟨old, old_eq, rfl⟩
  · rw [List.getElem?_modify_ne _ _ here] at found
    exact .inr ⟨place, fun same => here same.symm, found⟩

/-- Cursors in different places have different shards. -/
theorem Filled.shard_ne {reader : RunReader} {cursors : List (Fin 16 × PartitionCursor)}
    {out : List Record} {given : Fin 16 → List Record} (filled : Filled env replies reader cursors out given)
    {i j : Nat} (apart : i ≠ j) {left right : Fin 16 × PartitionCursor}
    (inLeft : cursors[i]? = some left) (inRight : cursors[j]? = some right) : left.1 ≠ right.1 := by
  intro same
  have nodup : (cursors.map Prod.fst).Nodup := by
    rw [filled.shards]
    exact List.nodup_finRange 16
  have first : (cursors.map Prod.fst)[i]? = some left.1 := by rw [List.getElem?_map, inLeft]; rfl
  have second : (cursors.map Prod.fst)[j]? = some left.1 := by rw [List.getElem?_map, inRight, same]; rfl
  rcases List.getElem?_eq_some_iff.mp first with ⟨bound, _⟩
  exact apart ((List.getElem?_inj bound nodup).mp (first.trans second.symm))

/-- Giving the least front keeps the trace. -/
theorem Filled.give {reader : RunReader} {cursors : List (Fin 16 × PartitionCursor)} {out : List Record}
    {given : Fin 16 → List Record} (filled : Filled env replies reader cursors out given)
    (perm : out.Perm ((List.finRange 16).flatMap given)) (sorted : StrictlySorted Record.version out)
    {index : Nat} {record : Record}
    (found : leastFront Record.version (cursors.map (fun cursor => cursor.2.page.head?)) =
      some (index, record)) :
    ∃ given', RunScanner.Traces env replies reader
      ⟨cursors.modify index (fun cursor => (cursor.1, cursor.2.pop record)), false⟩ (out ++ [record])
      given' := by
  have least := least_leastFront found
  have front := least.front
  rw [List.getElem?_map] at front
  rcases Option.map_eq_some_iff.mp front with ⟨chosen, here, shown⟩
  have inside := List.mem_of_getElem? here
  rcases List.head?_eq_some_iff.mp shown with ⟨rest, page⟩
  rcases filled.walked chosen inside with ⟨pages, leaves, walked⟩
  have ownSorted := walked.sorted
  rw [page] at ownSorted
  have own := Function.update_self chosen.1 (given chosen.1 ++ [record]) given
  -- a record shown by another cursor belongs to another partition, so it is above
  have others : ∀ place ≠ index, ∀ cursor, cursors[place]? = some cursor →
      ∀ other ∈ cursor.2.page.head?, record.version < other.version := by
    intro place apart cursor present other visible
    have above := least.least other (List.mem_map.mpr ⟨cursor, List.mem_of_getElem? present, visible⟩)
    rcases filled.walked cursor (List.mem_of_getElem? present) with ⟨_, _, otherWalked⟩
    refine lt_of_le_of_ne above ?_
    intro same
    have keys : record.key = other.key := (version_inj.mp same).1
    have one := (walked.routed record (by rw [page]; simp)).2
    have two := (otherWalked.routed other
      (List.mem_append_right _ (List.mem_of_mem_head? visible))).2
    apply filled.shard_ne apart present here
    rw [← two, ← keys, one]
  refine ⟨Function.update given chosen.1 (given chosen.1 ++ [record]), rfl, ?_, ?_, ?_, ?_, ?_⟩
  · rw [← filled.shards]
    apply List.ext_getElem?
    intro place
    rw [List.getElem?_map, List.getElem?_map, List.getElem?_modify]
    cases cursors[place]? with
    | none => rfl
    | some cursor =>
        simp only [Option.map_eq_map, Option.map_some]
        split <;> rfl
  · intro cursor member
    right
    rcases mem_modify member with ⟨old, old_eq, rfl⟩ | ⟨place, apart, present⟩
    · rw [here] at old_eq
      cases old_eq
      simp only [own]
      exact ⟨pages, leaves, walked.pop page⟩
    · rw [Function.update_of_ne (filled.shard_ne apart present here)]
      exact filled.walked cursor (List.mem_of_getElem? present)
  · intro last known cursor member
    have same : last = record.version := by simpa using known.symm
    subst same
    rcases mem_modify member with ⟨old, old_eq, rfl⟩ | ⟨place, apart, present⟩
    · rw [here] at old_eq
      cases old_eq
      simp only [own]
      constructor
      · intro next visible
        have later : next ∈ rest := by
          simp only [PartitionCursor.pop, page, List.tail_cons] at visible
          exact List.mem_of_mem_head? visible
        exact (List.pairwise_cons.mp (List.pairwise_append.mp ownSorted).2.1).1 next later
      · intro _
        right
        simp
    · rw [Function.update_of_ne (filled.shard_ne apart present here)]
      exact ⟨others place apart cursor present,
        fun empty => .inl (filled.spent cursor (List.mem_of_getElem? present) empty)⟩
  · exact (perm.append_right [record]).trans
      (perm_flatMap_update given chosen.1 record (List.nodup_finRange 16) (List.mem_finRange _))
  · refine List.pairwise_append.mpr ⟨sorted, List.pairwise_singleton _ _, ?_⟩
    intro old member new last
    rw [List.mem_singleton.mp last]
    rcases List.eq_nil_or_concat out with nothing | ⟨early, final, whole⟩
    · rw [nothing] at member
      cases member
    · rw [List.concat_eq_append] at whole
      subst whole
      have above := filled.front final.version (by simp) chosen inside record shown
      rcases List.mem_append.mp member with before | atEnd
      · exact ((List.pairwise_append.mp sorted).2.2 old before final (List.mem_singleton.mpr rfl)).trans above
      · rw [List.mem_singleton.mp atEnd]
        exact above

/-- What one call of a scanner leaves. -/
theorem RunScanner.Traces.next {reader : RunReader} {scanner : RunScanner} {out : List Record}
    {given : Fin 16 → List Record} (traces : scanner.Traces env replies reader out given) :
    ∃ result rest, ((scanner.next env).run replies).2 = .ok (result, rest) ∧
      ((∃ error, result = .error error ∧ rest.failed = true) ∨
        (result = .ok none ∧ rest.Traces env replies reader out given ∧
          ∀ cursor ∈ rest.cursors, cursor.2.Spent ∧ ∃ pages leaves,
            cursor.2.Walked env replies cursor.1 (reader.index cursor.1) (given cursor.1) pages leaves) ∨
        ∃ record given', result = .ok (some record) ∧
          rest.Traces env replies reader (out ++ [record]) given') := by
  unfold RunScanner.next
  rw [traces.intact, if_neg Bool.false_ne_true]
  cases readied : ((readyAll env scanner.cursors).run replies).2 with
  | error error =>
      refine ⟨.error error, { scanner with failed := true }, ?_, .inl ⟨error, rfl, rfl⟩⟩
      apply Prog.run_bind_eq_ok.mpr
      exact ⟨.error error, by rw [Prog.run_attempt, readied], rfl⟩
  | ok cursors =>
      have filled := traces.filled readied
      have attempted : ((Prog.attempt (readyAll env scanner.cursors)).run replies).2 = .ok (.ok cursors) := by
        rw [Prog.run_attempt, readied]
      cases found : leastFront Record.version (cursors.map (fun cursor => cursor.2.page.head?)) with
      | none =>
          have empty : ∀ cursor ∈ cursors, cursor.2.page = [] := by
            intro cursor member
            exact List.head?_eq_none_iff.mp (leastFront_eq_none found _ (List.mem_map_of_mem member))
          refine ⟨.ok none, ⟨cursors, false⟩, ?_, .inr (.inl ⟨rfl, ?_, ?_⟩)⟩
          · apply Prog.run_bind_eq_ok.mpr
            refine ⟨.ok cursors, attempted, ?_⟩
            simp only [found]
            rfl
          · refine ⟨rfl, filled.shards, fun cursor member => .inr (filled.walked cursor member), ?_,
              traces.perm, traces.sorted⟩
            intro last known cursor member
            exact ⟨filled.front last known cursor member,
              fun _ => .inl (filled.spent cursor member (empty cursor member))⟩
          · intro cursor member
            exact ⟨filled.spent cursor member (empty cursor member), filled.walked cursor member⟩
      | some taken =>
          rcases taken with ⟨index, record⟩
          rcases filled.give traces.perm traces.sorted found with ⟨given', gives⟩
          refine ⟨.ok (some record), _, ?_, .inr (.inr ⟨record, given', rfl, gives⟩)⟩
          apply Prog.run_bind_eq_ok.mpr
          refine ⟨.ok cursors, attempted, ?_⟩
          simp only [found]
          rfl

/-- A failed scanner stays failed. -/
theorem RunScanner.calls_failed {scanner : RunScanner} (failed : scanner.failed = true) (count : Nat) :
    scanner.calls env replies count =
      List.replicate count (bail "run scanner is invalid after a failed read") := by
  induction count with
  | zero => rfl
  | succ count ih =>
      have stopped : ((scanner.next env).run replies).2 =
          .ok (bail "run scanner is invalid after a failed read", scanner) := by
        unfold RunScanner.next
        rw [if_pos failed]
        rfl
      rw [RunScanner.calls, stopped, List.replicate_succ]
      exact congrArg _ ih

/-- The records among the results of calls. -/
def yielded (results : List (Result (Option Record))) : List Record :=
  results.filterMap (fun result =>
    match result with
    | .ok found => found
    | .error _ => none)

theorem yielded_replicate_error (count : Nat) (message : String) :
    yielded (List.replicate count (bail message)) = [] := by
  apply List.filterMap_eq_nil_iff.mpr
  intro result member
  rw [List.eq_of_mem_replicate member]
  rfl

theorem RunScanner.Traces.yielded_sorted {reader : RunReader} {scanner : RunScanner} {out : List Record}
    {given : Fin 16 → List Record} (traces : scanner.Traces env replies reader out given) (count : Nat) :
    StrictlySorted Record.version (out ++ yielded (scanner.calls env replies count)) := by
  induction count generalizing scanner out given with
  | zero =>
      rw [RunScanner.calls, yielded, List.filterMap_nil, List.append_nil]
      exact traces.sorted
  | succ count ih =>
      rcases traces.next with ⟨result, rest, called, stopped | exhausted | gave⟩
      · rcases stopped with ⟨error, rfl, failed⟩
        rw [RunScanner.calls, called]
        dsimp only
        rw [RunScanner.calls_failed failed, ← List.singleton_append, yielded, List.filterMap_append]
        rw [← yielded, ← yielded, yielded_replicate_error]
        simpa [yielded] using traces.sorted
      · rcases exhausted with ⟨rfl, same, _⟩
        rw [RunScanner.calls, called]
        exact ih same
      · rcases gave with ⟨record, given', rfl, more⟩
        have sorted := ih more
        rw [List.append_assoc] at sorted
        rw [RunScanner.calls, called]
        exact sorted

/-- A scan that reaches its end without an error leaves every cursor spent. -/
theorem RunScanner.Traces.finished {reader : RunReader} {scanner : RunScanner} {out records : List Record}
    {given : Fin 16 → List Record} (traces : scanner.Traces env replies reader out given)
    (calls : scanner.calls env replies (records.length + 1) =
      records.map (fun record => .ok (some record)) ++ [.ok none]) :
    ∃ rest given', RunScanner.Traces env replies reader rest (out ++ records) given' ∧
      ∀ cursor ∈ rest.cursors, cursor.2.Spent ∧ ∃ pages leaves,
        cursor.2.Walked env replies cursor.1 (reader.index cursor.1) (given' cursor.1) pages leaves := by
  induction records generalizing scanner out given with
  | nil =>
      rcases traces.next with ⟨result, rest, called, kept⟩
      rw [List.length_nil, RunScanner.calls, called] at calls
      cases calls
      rcases kept with ⟨_, wrong, _⟩ | ⟨_, same, spent⟩ | ⟨_, _, wrong, _⟩
      · cases wrong
      · rw [List.append_nil]
        exact ⟨rest, given, same, spent⟩
      · cases wrong
  | cons record records ih =>
      rcases traces.next with ⟨result, rest, called, kept⟩
      rw [List.length_cons, RunScanner.calls, called] at calls
      rcases List.cons.inj calls with ⟨rfl, later⟩
      rcases kept with ⟨_, wrong, _⟩ | ⟨wrong, _⟩ | ⟨_, given', same, more⟩
      · cases wrong
      · cases wrong
      · cases same
        rw [List.append_cons]
        exact ih more later

/-- After an error every further call is one. -/
theorem RunScanner.Traces.errors_stay {reader : RunReader} {scanner : RunScanner} {out : List Record}
    {given : Fin 16 → List Record} (traces : scanner.Traces env replies reader out given)
    {count i j : Nat} {error : Error}
    (failed : (scanner.calls env replies count)[i]? = some (.error error)) (later : i ≤ j)
    (inside : j < count) : ∃ error', (scanner.calls env replies count)[j]? = some (.error error') := by
  induction count generalizing scanner out given i j with
  | zero => exact absurd inside (Nat.not_lt_zero _)
  | succ count ih =>
      rcases traces.next with ⟨result, rest, called, stopped | moved⟩
      · rcases stopped with ⟨first, rfl, broken⟩
        rw [RunScanner.calls, called]
        dsimp only
        rw [RunScanner.calls_failed broken]
        cases j with
        | zero => exact ⟨first, rfl⟩
        | succ j =>
            refine ⟨["run scanner is invalid after a failed read"], ?_⟩
            rw [List.getElem?_cons_succ, List.getElem?_replicate, if_pos (by omega)]
            rfl
      · have fine : ∃ found, result = .ok found := by
          rcases moved with ⟨same, _⟩ | ⟨record, _, same, _⟩
          · exact ⟨_, same⟩
          · exact ⟨_, same⟩
        have kept : ∃ out' given', RunScanner.Traces env replies reader rest out' given' := by
          rcases moved with ⟨_, more, _⟩ | ⟨_, _, _, more⟩
          · exact ⟨_, _, more⟩
          · exact ⟨_, _, more⟩
        rcases fine with ⟨found, rfl⟩
        rcases kept with ⟨out', given', more⟩
        rw [RunScanner.calls, called] at failed ⊢
        dsimp only at failed ⊢
        cases i with
        | zero => cases failed
        | succ i =>
            cases j with
            | zero => exact absurd later (Nat.not_succ_le_zero _)
            | succ j =>
                rw [List.getElem?_cons_succ] at failed ⊢
                exact ih more failed (by omega) (by omega)

/-- The newest value is that of the last record of its key at or before the block. -/
theorem newest_eq_last {records : List Record} {key : Bytes} {block : UInt64} {value : Option Bytes}
    (sorted : StrictlySorted Record.version records) (newest : Newest records key block value) :
    value = (records.filter (fun record => record.key = key ∧ record.block ≤ block)).getLast?.map
      Record.value := by
  have members : ∀ record, record ∈ records.filter (fun record => record.key = key ∧ record.block ≤ block) ↔
      record ∈ records ∧ record.key = key ∧ record.block ≤ block := by
    intro record
    simp
  have ordered : StrictlySorted Record.version
      (records.filter (fun record => record.key = key ∧ record.block ≤ block)) :=
    sorted.sublist List.filter_sublist
  generalize records.filter (fun record => record.key = key ∧ record.block ≤ block) = matching
    at members ordered
  cases matching using List.reverseRecOn with
  | nil =>
      cases value with
      | none => rfl
      | some value =>
          rcases newest with ⟨record, member, same, low, _⟩
          cases (members record).mpr ⟨member, same, low⟩
  | append_singleton early last _ =>
      rcases (members last).mp (by simp) with ⟨lastIn, lastKey, lastLow⟩
      rw [List.getLast?_concat, Option.map_some]
      cases value with
      | none => exact absurd (newest last lastIn lastKey) (not_lt_of_ge lastLow)
      | some value =>
          rcases newest with ⟨record, member, same, low, rfl, greatest⟩
          have high := greatest last lastIn lastKey lastLow
          rcases List.mem_append.mp ((members record).mpr ⟨member, same, low⟩) with before | atEnd
          · have less := (List.pairwise_append.mp ordered).2.2 record before last (by simp)
            exact absurd (version_le_iff.mpr (.inr ⟨lastKey.trans same.symm, high⟩)) (not_le_of_gt less)
          · rw [List.mem_singleton.mp atEnd]

/-- A finished scan has read what any lookup will read. -/
theorem lookup_finished {reader : RunReader} {rest : RunScanner} {records : List Record}
    {given : Fin 16 → List Record} (traces : rest.Traces env replies reader records given)
    (spent : ∀ cursor ∈ rest.cursors, cursor.2.Spent ∧ ∃ pages leaves,
      cursor.2.Walked env replies cursor.1 (reader.index cursor.1) (given cursor.1) pages leaves)
    (key : Bytes) (block : UInt64) :
    ∃ value, ((reader.lookup env key block).run replies).2 = .ok value ∧ Newest records key block value := by
  have cursors : ∀ shard, ∃ cursor ∈ rest.cursors, cursor.1 = shard := by
    intro shard
    have listed : shard ∈ rest.cursors.map Prod.fst := by
      rw [traces.shards]
      exact List.mem_finRange shard
    exact List.mem_map.mp listed
  have routed : ∀ shard, ∀ record ∈ given shard, record.key ≠ [] ∧ partition env record.key = shard := by
    intro shard record member
    rcases cursors shard with ⟨cursor, inside, rfl⟩
    rcases (spent cursor inside).2 with ⟨pages, leaves, walked⟩
    exact walked.routed record (List.mem_append_left _ member)
  have mem_out : ∀ record, record ∈ records ↔ ∃ shard, record ∈ given shard := by
    intro record
    rw [traces.perm.mem_iff, List.mem_flatMap]
    exact ⟨fun ⟨shard, _, member⟩ => ⟨shard, member⟩, fun ⟨shard, member⟩ => ⟨shard, List.mem_finRange _, member⟩⟩
  by_cases empty : key = []
  · subst empty
    refine ⟨none, rfl, ?_⟩
    intro record member same
    rcases (mem_out record).mp member with ⟨shard, here⟩
    exact absurd same (routed shard record here).1
  · rcases cursors (partition env key) with ⟨cursor, inside, own⟩
    rcases spent cursor inside with ⟨done, pages, leaves, walked⟩
    rw [own] at walked
    have noParents : cursor.2.parents.drop cursor.2.parentPos = [] :=
      List.drop_eq_nil_iff.mpr (List.getElem?_eq_none_iff.mp done.parents)
    have noFences : cursor.2.leaf.drop cursor.2.fencePos = [] := by rw [done.leaf, List.drop_length]
    have entered := walked.entered
    have fences := walked.fences
    have whole := walked.records
    have sorted := walked.sorted
    rw [noParents] at entered
    rw [noFences, List.append_nil] at fences
    rw [done.page, List.append_nil] at whole sorted
    rw [← whole] at sorted
    refine ⟨_, lookup_read empty entered fences walked.found sorted, ?_⟩
    refine (newest_congr ?_).mp (newest_floorValue sorted)
    intro record same _
    rw [whole, mem_out]
    constructor
    · intro member
      exact ⟨_, member⟩
    · intro ⟨shard, member⟩
      rw [← same, (routed shard record member).2]
      exact member

/-- On any object graph, a scan gives strictly increasing records; when it reaches
its end without an error, lookups agree with it; and an error is final. -/
theorem lookup_eq_scan (env : Primitives) (replies : ObjectRef → Result Bytes) (reader : RunReader) :
    (∀ count, StrictlySorted Record.version (yielded (reader.scanner.calls env replies count))) ∧
    (∀ records : List Record, reader.scanner.calls env replies (records.length + 1) =
        records.map (fun record => .ok (some record)) ++ [.ok none] →
      ∀ key block, ((reader.lookup env key block).run replies).2 =
        .ok ((records.filter (fun record => record.key = key ∧ record.block ≤ block)).getLast?.map
          Record.value)) ∧
    ∀ count i j error, (reader.scanner.calls env replies count)[i]? = some (.error error) → i ≤ j →
      j < count → ∃ error', (reader.scanner.calls env replies count)[j]? = some (.error error') := by
  have start : reader.scanner.Traces env replies reader [] (fun _ => []) := reader.scanner_traces
  refine ⟨?_, ?_, ?_⟩
  · intro count
    exact start.yielded_sorted count
  · intro records calls key block
    rcases start.finished calls with ⟨rest, given, traces, spent⟩
    rw [List.nil_append] at traces
    rcases lookup_finished traces spent key block with ⟨value, found, newest⟩
    rw [found, newest_eq_last traces.sorted newest]
  · intro count i j error failed later inside
    exact start.errors_stay failed later inside

end

end Fossil

import Fossil.Canonical

/-! When the builder accepts its input.

A partition is cut greedily into pages, and the first versions of the pages into
leaves. Both cuts depend on the records alone, and so does the size of every
index. What is left is the compressed size of a page, and the builder finishes
exactly when each page of the cut fits once it is compressed. -/

namespace Fossil

/-! Pages. -/

/-- The closed pages and the open page of one partition. -/
structure PageCut where
  pages : List (List Record)
  current : List Record
  deriving DecidableEq

def PageCut.start : PageCut := ⟨[], []⟩

def PageCut.close (cut : PageCut) : PageCut :=
  if cut.current = [] then cut else ⟨cut.pages ++ [cut.current], []⟩

/-- The cut with room for one more record. -/
def PageCut.room (cut : PageCut) (record : Record) : PageCut :=
  if (pageBytes cut.current).length + (recordBytes record).length > maxPageBytes then cut.close
  else cut

def PageCut.push (cut : PageCut) (record : Record) : PageCut :=
  { cut.room record with current := (cut.room record).current ++ [record] }

def pageCut (records : List Record) : PageCut := records.foldl PageCut.push .start

/-- The pages of a partition with these records. -/
def pagesOf (records : List Record) : List (List Record) := (pageCut records).close.pages

/-- The versions in the fences of pages. -/
def firstVersions (pages : List (List Record)) : List Version :=
  pages.filterMap (fun page => page.head?.map Record.version)

def PageCut.firsts (cut : PageCut) : List Version := firstVersions cut.close.pages

/-! Leaves. -/

/-- The first versions of all leaves, and the versions of the open one. -/
structure LeafCut where
  heads : List Version
  leaf : List Version
  deriving DecidableEq

/-- The size of an index with these versions in its fences. -/
def entriesSize (versions : List Version) : Nat :=
  9 + (versions.map (fun version => 4 + (ofLex version).1.length + 8 + refBytes)).sum

def LeafCut.push (cut : LeafCut) (version : Version) : LeafCut :=
  if cut.leaf ≠ [] ∧ entriesSize (cut.leaf ++ [version]) ≤ maxIndexBytes then
    { cut with leaf := cut.leaf ++ [version] }
  else ⟨cut.heads ++ [version], [version]⟩

def leafCut (versions : List Version) : LeafCut := versions.foldl LeafCut.push ⟨[], []⟩

/-- Every fence fits a leaf, and the fences of the leaves fit the internal root. -/
structure FencesFit (versions : List Version) : Prop where
  single : ∀ version ∈ versions, entriesSize [version] ≤ maxIndexBytes
  internal : entriesSize (leafCut versions).heads ≤ maxIndexBytes

theorem indexSize_entries (entries : List Fence) :
    indexSize entries = entriesSize (entries.map Fence.version) := by
  induction entries using List.reverseRecOn with
  | nil => rfl
  | append_singleton entries fence ih =>
      rw [indexSize_append, ih, entriesSize, entriesSize]
      simp [Fence.version, version, Nat.add_assoc]

theorem entriesSize_sublist {few many : List Version} (sub : few.Sublist many) :
    entriesSize few ≤ entriesSize many := by
  induction sub with
  | slnil => exact Nat.le_refl _
  | cons version _ ih =>
      simp only [entriesSize, List.map_cons, List.sum_cons] at ih ⊢
      omega
  | cons_cons version _ ih =>
      simp only [entriesSize, List.map_cons, List.sum_cons] at ih ⊢
      omega

section

variable {versions more : List Version} {version : Version}

theorem leafCut_snoc (versions : List Version) (version : Version) :
    leafCut (versions ++ [version]) = (leafCut versions).push version := by
  simp [leafCut]

theorem leafCut_heads_push (cut : LeafCut) (version : Version) :
    cut.heads <+: (cut.push version).heads := by
  unfold LeafCut.push
  split
  · exact List.prefix_refl _
  · exact List.prefix_append _ _

theorem leafCut_heads_append (versions more : List Version) :
    (leafCut versions).heads <+: (leafCut (versions ++ more)).heads := by
  induction more using List.reverseRecOn with
  | nil => simp
  | append_singleton more version ih =>
      rw [← List.append_assoc, leafCut_snoc]
      exact ih.trans (leafCut_heads_push _ version)

theorem leafCut_heads_sublist (versions : List Version) : (leafCut versions).heads.Sublist versions := by
  induction versions using List.reverseRecOn with
  | nil => exact List.Sublist.slnil
  | append_singleton versions version ih =>
      rw [leafCut_snoc, LeafCut.push]
      split
      · exact ih.trans (List.sublist_append_left _ _)
      · exact ih.append (List.Sublist.refl _)

theorem FencesFit.of_append (fits : FencesFit (versions ++ more)) : FencesFit versions :=
  ⟨fun version member => fits.single version (List.mem_append_left _ member),
    (entriesSize_sublist (leafCut_heads_append versions more).sublist).trans fits.internal⟩

/-- The open leaf fits, because it was kept open. -/
theorem leafCut_leaf_size (single : ∀ version ∈ versions, entriesSize [version] ≤ maxIndexBytes) :
    entriesSize (leafCut versions).leaf ≤ maxIndexBytes := by
  induction versions using List.reverseRecOn with
  | nil => decide
  | append_singleton versions version ih =>
      rw [leafCut_snoc, LeafCut.push]
      split
      · rename_i kept
        exact kept.2
      · exact single version (by simp)

/-- The open leaf is the last one. -/
theorem leafCut_last (versions : List Version) :
    (leafCut versions).heads.getLast? = (leafCut versions).leaf.head? := by
  induction versions using List.reverseRecOn with
  | nil => rfl
  | append_singleton versions version ih =>
      rw [leafCut_snoc, LeafCut.push]
      split
      · rename_i kept
        dsimp only
        rw [ih, List.head?_append_of_ne_nil _ kept.1]
      · simp

/-! The cut of a partition. -/

variable {cut : PageCut} {records : List Record} {record : Record}

theorem close_current (cut : PageCut) : cut.close.current = [] := by
  unfold PageCut.close
  split
  · assumption
  · rfl

theorem close_close (cut : PageCut) : cut.close.close = cut.close := by
  rw [PageCut.close, if_pos (close_current cut)]

theorem firsts_eq (cut : PageCut) :
    cut.firsts = firstVersions cut.pages ++ (cut.current.head?.map Record.version).toList := by
  unfold PageCut.firsts PageCut.close firstVersions
  split
  · simp [*]
  · cases shape : cut.current with
    | nil => contradiction
    | cons first rest => simp

theorem room_current (cut : PageCut) (record : Record) :
    (cut.room record).current = [] ∨ (cut.room record).current = cut.current := by
  unfold PageCut.room
  split
  · exact .inl (close_current cut)
  · exact .inr rfl

theorem room_firsts (cut : PageCut) (record : Record) : (cut.room record).firsts = cut.firsts := by
  unfold PageCut.room
  split
  · rw [PageCut.firsts, close_close, PageCut.firsts]
  · rfl

theorem push_firsts (cut : PageCut) (record : Record) :
    (cut.push record).firsts =
      cut.firsts ++ if (cut.room record).current = [] then [record.version] else [] := by
  rw [← room_firsts cut record, firsts_eq, firsts_eq, PageCut.push]
  cases shape : (cut.room record).current with
  | nil => simp
  | cons first rest => simp

theorem pageCut_snoc (records : List Record) (record : Record) :
    pageCut (records ++ [record]) = (pageCut records).push record := by
  simp [pageCut]

theorem pageCut_current_sublist (records : List Record) : (pageCut records).current.Sublist records := by
  induction records using List.reverseRecOn with
  | nil => exact List.Sublist.slnil
  | append_singleton records record ih =>
      rw [pageCut_snoc, PageCut.push]
      refine List.Sublist.append ?_ (List.Sublist.refl _)
      obtain empty | same := room_current (pageCut records) record
      · rw [empty]
        exact List.nil_sublist _
      · rw [same]
        exact ih

theorem pageBytes_snoc (records : List Record) (record : Record) :
    (pageBytes (records ++ [record])).length =
      (pageBytes records).length + (recordBytes record).length := by
  simp only [pageBytes_length, List.flatMap_append, List.flatMap_cons, List.flatMap_nil,
    List.append_nil, List.length_append, Nat.add_assoc]

theorem Record.Fits.alone (fits : record.Fits) :
    (pageBytes []).length + (recordBytes record).length ≤ maxPageBytes := by
  have size := fits.size
  rw [pageBytes_length, recordBytes_length]
  simp only [List.flatMap_nil, List.length_nil]
  omega

/-- There is room after making it. -/
theorem room_size (fits : record.Fits) :
    (pageBytes (cut.room record).current).length + (recordBytes record).length ≤ maxPageBytes := by
  unfold PageCut.room
  split
  · rw [close_current]
    exact fits.alone
  · omega

theorem pageCut_small (fits : ∀ record ∈ records, record.Fits) :
    (pageBytes (pageCut records).current).length ≤ maxPageBytes := by
  induction records using List.reverseRecOn with
  | nil => decide
  | append_singleton records record _ =>
      rw [pageCut_snoc, PageCut.push]
      dsimp only
      rw [pageBytes_snoc]
      exact room_size (fits record (by simp))

theorem pageCut_firsts_sublist (records : List Record) :
    (pageCut records).firsts.Sublist (records.map Record.version) := by
  induction records using List.reverseRecOn with
  | nil => exact List.Sublist.slnil
  | append_singleton records record ih =>
      rw [pageCut_snoc, push_firsts, List.map_append]
      refine ih.append ?_
      split
      · exact List.Sublist.refl _
      · exact List.nil_sublist _

theorem pageCut_firsts_append (records more : List Record) :
    (pageCut records).firsts <+: (pageCut (records ++ more)).firsts := by
  induction more using List.reverseRecOn with
  | nil => simp
  | append_singleton more record ih =>
      rw [← List.append_assoc, pageCut_snoc, push_firsts]
      exact ih.trans (List.prefix_append _ _)

theorem pageCut_pages_append (records more : List Record) :
    (pageCut records).pages <+: (pageCut (records ++ more)).pages := by
  induction more using List.reverseRecOn with
  | nil => simp
  | append_singleton more record ih =>
      rw [← List.append_assoc, pageCut_snoc]
      refine ih.trans ?_
      simp only [PageCut.push, PageCut.room, PageCut.close]
      split
      · split
        · exact List.prefix_refl _
        · exact List.prefix_append _ _
      · exact List.prefix_refl _

end

/-! The index of a partition under construction. -/

section

variable {env : Primitives} {part : PartitionBuild} {versions : List Version}

/-- The open leaf and the closed ones are those of the cut. -/
structure PartitionBuild.Indexed (part : PartitionBuild) (versions : List Version) : Prop where
  leaf : part.leaf.map Fence.version = (leafCut versions).leaf
  parents : part.parents.map Fence.version ++ (part.leaf.head?.map Fence.version).toList =
    (leafCut versions).heads

theorem makeObject_of_length {bytes : Bytes} (bound : bytes.length < 2 ^ 32) :
    ∃ object, makeObject env bytes = .ok object :=
  ⟨_, makeObject_eq_ok.mpr ⟨bound, rfl⟩⟩

/-- An index within its bound is written. -/
theorem index_made {entries : List Fence} (magic : Bytes) (width : magic.length = 4)
    (size : entriesSize (entries.map Fence.version) ≤ maxIndexBytes) :
    ∃ bytes object, encodeIndex entries magic = .ok bytes ∧ makeObject env bytes = .ok object := by
  rw [← indexSize_entries] at size
  have encoded := encodeIndex_of_size magic size
  have total := indexSize_eq entries
  obtain ⟨object, made⟩ := @makeObject_of_length env (magic ++ [formatVersion] ++
      be32 (UInt32.ofNat entries.length) ++ entries.flatMap fenceBytes) (by
    simp only [List.length_append, width, be32_length, List.length_singleton]
    simp only [maxIndexBytes] at size
    omega)
  exact ⟨_, object, encoded, made⟩

/-- Closing the open leaf succeeds when the fences fit and rise. -/
theorem emitLeaf_indexed (indexed : part.Indexed versions) (fits : FencesFit versions)
    (sorted : versions.Pairwise (· < ·)) :
    ∃ ops next, (emitLeaf env part).collect = (ops, .ok next) ∧ next.leaf = [] ∧
      next.parents.map Fence.version = (leafCut versions).heads ∧
      next.page = part.page ∧ next.count = part.count := by
  cases shape : part.leaf with
  | nil =>
      refine ⟨[], part, by simp [emitLeaf, shape], shape, ?_, rfl, rfl⟩
      simpa [shape] using indexed.parents
  | cons first rest =>
      have heads := indexed.parents
      rw [shape] at heads
      simp only [List.head?_cons, Option.map_some, Option.toList_some] at heads
      have leafSize : entriesSize (part.leaf.map Fence.version) ≤ maxIndexBytes := by
        rw [indexed.leaf]
        exact leafCut_leaf_size fits.single
      obtain ⟨bytes, object, encoded, made⟩ := @index_made env _ indexMagic rfl leafSize
      have rises : ¬ ∃ prior ∈ part.parents.getLast?, Fence.version ⟨first.key, first.block,
          object.reference⟩ ≤ prior.version := by
        intro ⟨prior, isLast, low⟩
        have all := sorted.sublist (leafCut_heads_sublist versions)
        rw [← heads] at all
        have less := (List.pairwise_append.mp all).2.2 prior.version
          (List.mem_map_of_mem (List.mem_of_getLast? isLast)) first.version (by simp)
        exact not_lt_of_ge low less
      have room : ¬ indexSize (part.parents ++ [⟨first.key, first.block, object.reference⟩]) >
          maxIndexBytes := by
        rw [indexSize_entries, List.map_append]
        have bound := fits.internal
        rw [← heads] at bound
        exact Nat.not_lt.mpr bound
      rw [shape] at encoded
      refine ⟨[object], { part with
        parents := part.parents ++ [⟨first.key, first.block, object.reference⟩], leaf := [] },
        ?_, rfl, ?_, rfl, rfl⟩
      · simp only [emitLeaf, shape, Prog.bind_eq, Prog.liftM_eq]
        exact Prog.collect_ofExcept_bind.mpr ⟨bytes, encoded, Prog.collect_ofExcept_bind.mpr
          ⟨object, made, Prog.collect_guard.mpr ⟨rises, Prog.collect_guard.mpr ⟨room,
            Prog.collect_request_bind.mpr ⟨(), [], rfl, rfl, rfl⟩⟩⟩⟩⟩
      · rw [List.map_append, ← heads]
        rfl

/-- A fence that fits is added to the open leaf or opens the next one. -/
theorem appendLeafFence_indexed {fence : Fence} (indexed : part.Indexed versions)
    (fits : FencesFit (versions ++ [fence.version]))
    (sorted : (versions ++ [fence.version]).Pairwise (· < ·)) :
    ∃ ops next, (appendLeafFence env part fence).collect = (ops, .ok next) ∧
      next.Indexed (versions ++ [fence.version]) ∧ next.page = part.page ∧ next.count = part.count := by
  have single : entriesSize [fence.version] ≤ maxIndexBytes := fits.single _ (by simp)
  have size : ∀ leaf : List Fence, indexSize (leaf ++ [fence]) =
      entriesSize (leaf.map Fence.version ++ [fence.version]) := by
    intro leaf
    rw [indexSize_entries, List.map_append]
    rfl
  by_cases open_ : part.leaf = []
  · -- The first fence of all: the leaf and the parents are both empty.
    have empty : (leafCut versions).leaf = [] := by rw [← indexed.leaf, open_]; rfl
    have pushed : leafCut (versions ++ [fence.version]) =
        ⟨(leafCut versions).heads ++ [fence.version], [fence.version]⟩ := by
      rw [leafCut_snoc, LeafCut.push, if_neg (by simp [empty])]
    refine ⟨[], { part with leaf := part.leaf ++ [fence] }, ?_, ⟨?_, ?_⟩, rfl, rfl⟩
    · rw [appendLeafFence, if_pos (by rw [size, open_]; exact single), Prog.collect_ret]
    · rw [pushed, open_]
      rfl
    · rw [pushed, ← indexed.parents, open_]
      simp
  · have nonempty : (leafCut versions).leaf ≠ [] := by
      rw [← indexed.leaf]
      simpa using open_
    by_cases small : entriesSize ((leafCut versions).leaf ++ [fence.version]) ≤ maxIndexBytes
    · have pushed : leafCut (versions ++ [fence.version]) =
          ⟨(leafCut versions).heads, (leafCut versions).leaf ++ [fence.version]⟩ := by
        rw [leafCut_snoc, LeafCut.push, if_pos ⟨nonempty, small⟩]
      refine ⟨[], { part with leaf := part.leaf ++ [fence] }, ?_, ⟨?_, ?_⟩, rfl, rfl⟩
      · rw [appendLeafFence, if_pos (by rw [size, indexed.leaf]; exact small), Prog.collect_ret]
      · rw [pushed, ← indexed.leaf]
        simp
      · rw [pushed, ← indexed.parents]
        dsimp only
        rw [List.head?_append_of_ne_nil _ open_]
    · have pushed : leafCut (versions ++ [fence.version]) =
          ⟨(leafCut versions).heads ++ [fence.version], [fence.version]⟩ := by
        rw [leafCut_snoc, LeafCut.push, if_neg (by simp [small])]
      obtain ⟨ops, closed, emitted, noLeaf, parents, page, count⟩ := @emitLeaf_indexed env part versions
        indexed fits.of_append (List.pairwise_append.mp sorted).1
      refine ⟨ops, { closed with leaf := closed.leaf ++ [fence] }, ?_, ⟨?_, ?_⟩, page, count⟩
      · rw [appendLeafFence, if_neg (by rw [size, indexed.leaf]; exact small), if_neg open_]
        refine Prog.collect_bind_eq_ok.mpr ⟨ops, closed, [], emitted, ?_, by simp⟩
        rw [if_neg (by rw [size, noLeaf]; exact Nat.not_lt.mpr single), Prog.collect_ret]
      · rw [pushed, noLeaf]
        rfl
      · rw [pushed, noLeaf, parents]
        rfl

/-! Pages that can be written. -/

/-- Compression always returns; how long its result is, is left open. -/
def Primitives.Compresses (env : Primitives) : Prop :=
  ∀ page, ∃ compressed, env.zstdCompress page = .ok compressed

/-- The page fits the bound with its header once it is compressed. -/
def Encodes (env : Primitives) (page : List Record) : Prop :=
  ∀ compressed, env.zstdCompress (pageBytes page) = .ok compressed →
    13 + compressed.length ≤ maxPageBytes

theorem encodePage_of_encodes (compresses : env.Compresses) {page : List Record}
    (small : (pageBytes page).length ≤ maxPageBytes) (encodes : Encodes env page) :
    ∃ object, encodePage env (pageBytes page) = .ok object := by
  obtain ⟨compressed, done⟩ := compresses (pageBytes page)
  have bound := encodes compressed done
  have size : (compressedMagic ++ [formatVersion] ++ be32 (UInt32.ofNat (pageBytes page).length) ++
      be32 (UInt32.ofNat compressed.length) ++ compressed).length = 13 + compressed.length := by
    simp only [compressedMagic, List.length_append, List.length_cons, List.length_nil, be32_length]
  obtain ⟨object, made⟩ := @makeObject_of_length env _ (by
    rw [size]
    simp only [maxPageBytes] at bound
    omega)
  refine ⟨object, ?_⟩
  rw [encodePage, done, ok_bind]
  dsimp only
  rw [if_neg (by rw [size]; omega), made]

theorem encodes_of_encodePage {page : List Record} {object : EncodedObject}
    (encoded : encodePage env (pageBytes page) = .ok object) : Encodes env page := by
  obtain ⟨compressed, done, _, bound, _⟩ := encodePage_eq_ok encoded
  intro other same
  rw [done] at same
  cases same
  exact bound

/-! A partition under construction follows the cut. -/

structure PartitionBuild.Tracks (env : Primitives) (part : PartitionBuild) (cut : PageCut) : Prop where
  page : part.page = dataPageStart ++ cut.current.flatMap recordBytes
  count : part.count = cut.current.length
  indexed : part.Indexed (firstVersions cut.pages)
  encoded : ∀ page ∈ cut.pages, Encodes env page

theorem PartitionBuild.Tracks.finished {cut : PageCut} (tracks : part.Tracks env cut) :
    part.finished = pageBytes cut.current := by
  rw [PartitionBuild.finished, tracks.page, tracks.count, pageBytes]
  rfl

/-- What is known of the records of a cut. -/
structure PageCut.Sane (cut : PageCut) : Prop where
  small : (pageBytes cut.current).length ≤ maxPageBytes
  sorted : StrictlySorted Record.version cut.current
  fits : ∀ record ∈ cut.current, record.Fits
  fences : FencesFit cut.firsts
  rising : cut.firsts.Pairwise (· < ·)

/-- A page that fits is written, and the partition follows the closed cut. -/
theorem flushPage_tracks {cut : PageCut} (compresses : env.Compresses)
    (tracks : part.Tracks env cut) (sane : cut.Sane)
    (encodes : cut.current ≠ [] → Encodes env cut.current) :
    ∃ ops next, (flushPage env part).collect = (ops, .ok next) ∧ next.Tracks env cut.close := by
  cases shape : cut.current with
  | nil =>
      refine ⟨[], part, ?_, ?_⟩
      · rw [flushPage, if_pos (by rw [tracks.count, shape]; rfl), Prog.collect_ret]
      · rw [PageCut.close, if_pos shape]
        exact tracks
  | cons first rest =>
      have nonempty : cut.current ≠ [] := by simp [shape]
      obtain ⟨object, encoded⟩ := encodePage_of_encodes compresses sane.small (encodes nonempty)
      have parsed : parseDataPayload env (pageBytes cut.current) none = .ok cut.current :=
        parseDataPayload_pageBytes nonempty sane.small sane.sorted sane.fits (by simp)
      have found : decodeFirstRecord env (pageBytes cut.current) = .ok first := by
        rw [decodeFirstRecord, parsed, ok_bind, shape]
      have closed : cut.close = ⟨cut.pages ++ [cut.current], []⟩ := by
        rw [PageCut.close, if_neg nonempty]
      have firsts : cut.firsts = firstVersions cut.pages ++ [first.version] := by
        rw [firsts_eq, shape]
        rfl
      have fences := sane.fences
      have rising := sane.rising
      rw [firsts] at fences rising
      obtain ⟨ops, next, appended, indexed, page, count⟩ := @appendLeafFence_indexed env part _
        ⟨first.key, first.block, object.reference⟩ tracks.indexed fences rising
      refine ⟨object :: ops, { next with page := dataPageStart, count := 0 }, ?_, ?_⟩
      · rw [flushPage, if_neg (by rw [tracks.count, shape]; simp), tracks.finished]
        simp only [Prog.bind_eq, Prog.liftM_eq]
        exact Prog.collect_ofExcept_bind.mpr ⟨first, found, Prog.collect_ofExcept_bind.mpr
          ⟨object, encoded, Prog.collect_request_bind.mpr ⟨(), ops, rfl,
            Prog.collect_bind_eq_ok.mpr ⟨ops, next, [], appended, rfl, by simp⟩, rfl⟩⟩⟩
      · rw [closed]
        refine ⟨by simp, rfl, ?_, ?_⟩
        · have versions : firstVersions (cut.pages ++ [cut.current]) =
              firstVersions cut.pages ++ [first.version] := by simp [firstVersions, shape]
          rw [versions]
          exact ⟨indexed.leaf, indexed.parents⟩
        · intro other member
          obtain old | new := List.mem_append.mp member
          · exact tracks.encoded other old
          · rw [List.mem_singleton.mp new]
            exact encodes nonempty

/-- A written page was one that fits. -/
theorem flushPage_encodes {cut : PageCut} {ops : List EncodedObject} {next : PartitionBuild}
    (tracks : part.Tracks env cut) (nonempty : cut.current ≠ [])
    (granted : (flushPage env part).collect = (ops, .ok next)) : Encodes env cut.current := by
  have counted : part.count ≠ 0 := by
    rw [tracks.count]
    simpa using nonempty
  simp only [flushPage, if_neg counted, tracks.finished, Prog.bind_eq, Prog.liftM_eq] at granted
  obtain ⟨_, _, granted⟩ := Prog.collect_ofExcept_bind.mp granted
  obtain ⟨_, encoded, _⟩ := Prog.collect_ofExcept_bind.mp granted
  exact encodes_of_encodePage encoded

theorem PartitionBuild.Tracks.page_length {cut : PageCut} (tracks : part.Tracks env cut) :
    part.page.length = (pageBytes cut.current).length := by
  rw [tracks.page, pageBytes_length]
  simp only [dataPageStart, dataMagic, List.length_append, be32_length, List.length_cons,
    List.length_nil]

/-- The page that a record makes the builder write, if any. -/
def PageCut.Writes (cut : PageCut) (record : Record) (page : List Record) : Prop :=
  (pageBytes cut.current).length + (recordBytes record).length > maxPageBytes ∧
    cut.current ≠ [] ∧ page = cut.current

theorem makeRoom_tracks {cut : PageCut} {record : Record} (compresses : env.Compresses)
    (tracks : part.Tracks env cut) (sane : cut.Sane) (fits : record.Fits)
    (encodes : ∀ page, cut.Writes record page → Encodes env page) :
    ∃ ops next, (makeRoom env part (recordBytes record)).collect = (ops, .ok next) ∧
      next.Tracks env (cut.room record) := by
  unfold PageCut.room makeRoom
  rw [tracks.page_length]
  by_cases full : (pageBytes cut.current).length + (recordBytes record).length > maxPageBytes
  · have nonempty : cut.current ≠ [] := by
      intro empty
      rw [empty] at full
      exact absurd fits.alone (Nat.not_le.mpr full)
    obtain ⟨ops, next, flushed, after⟩ := flushPage_tracks compresses tracks sane
      (fun _ => encodes _ ⟨full, nonempty, rfl⟩)
    have counted : part.count ≠ 0 := by
      rw [tracks.count]
      simpa using nonempty
    refine ⟨ops, next, ?_, by rw [if_pos full]; exact after⟩
    rw [if_pos full, if_neg counted]
    refine Prog.collect_bind_eq_ok.mpr ⟨ops, next, [], flushed, ?_, by simp⟩
    have room : ¬ next.page.length + (recordBytes record).length > maxPageBytes := by
      rw [after.page_length, close_current]
      exact Nat.not_lt.mpr fits.alone
    rw [if_neg room, Prog.collect_ret]
  · exact ⟨[], part, by rw [if_neg full, Prog.collect_ret], by rw [if_neg full]; exact tracks⟩

theorem makeRoom_encodes {cut : PageCut} {record : Record} {ops : List EncodedObject}
    {next : PartitionBuild} {page : List Record} (tracks : part.Tracks env cut)
    (granted : (makeRoom env part (recordBytes record)).collect = (ops, .ok next))
    (writes : cut.Writes record page) : Encodes env page := by
  obtain ⟨full, nonempty, rfl⟩ := writes
  rw [makeRoom, tracks.page_length, if_pos full] at granted
  obtain ⟨_, granted⟩ := Prog.collect_guard.mp granted
  obtain ⟨_, _, _, flushed, _⟩ := Prog.collect_bind_eq_ok.mp granted
  exact flushPage_encodes tracks nonempty flushed

/-! The builder follows the cuts of all partitions. -/

/-- The records of one partition. -/
def shardOf (env : Primitives) (shard : Fin 16) (records : List Record) : List Record :=
  records.filter (fun record => partition env record.key = shard)

/-- Input that the builder's own checks let through. -/
structure Admissible (env : Primitives) (records : List Record) : Prop where
  sorted : StrictlySorted Record.version records
  fits : ∀ record ∈ records, record.Fits
  fences : ∀ shard, FencesFit (firstVersions (pagesOf (shardOf env shard records)))

/-- Every page of every partition fits once it is compressed. -/
def PagesEncode (env : Primitives) (records : List Record) : Prop :=
  ∀ shard, ∀ page ∈ pagesOf (shardOf env shard records), Encodes env page

variable {records more : List Record} {record : Record} {state : BuilderState}

theorem shardOf_append (shard : Fin 16) (records more : List Record) :
    shardOf env shard (records ++ more) = shardOf env shard records ++ shardOf env shard more := by
  simp [shardOf]

theorem Admissible.of_append (admissible : Admissible env (records ++ more)) :
    Admissible env records := by
  refine ⟨(List.pairwise_append.mp admissible.sorted).1,
    fun record member => admissible.fits record (List.mem_append_left _ member), ?_⟩
  intro shard
  have fences := admissible.fences shard
  rw [shardOf_append] at fences
  obtain ⟨rest, same⟩ := pageCut_firsts_append (shardOf env shard records) (shardOf env shard more)
  have whole : firstVersions (pagesOf (shardOf env shard records ++ shardOf env shard more)) =
      (pageCut (shardOf env shard records)).firsts ++ rest := same.symm
  rw [whole] at fences
  exact fences.of_append

theorem Admissible.sane (admissible : Admissible env records) (shard : Fin 16) :
    (pageCut (shardOf env shard records)).Sane := by
  have inside : (shardOf env shard records).Sublist records := List.filter_sublist
  have current := (pageCut_current_sublist (shardOf env shard records)).trans inside
  refine ⟨pageCut_small (fun record member => admissible.fits record (inside.subset member)),
    admissible.sorted.sublist current,
    fun record member => admissible.fits record (current.subset member), admissible.fences shard, ?_⟩
  have versions := (pageCut_firsts_sublist (shardOf env shard records)).trans (inside.map Record.version)
  exact (List.pairwise_map.mpr admissible.sorted).sublist versions

structure BuilderState.Tracks (env : Primitives) (state : BuilderState) (records : List Record) :
    Prop where
  previous : state.previous = records.getLast?.map Record.version
  parts : ∀ shard, (state.parts shard).Tracks env (pageCut (shardOf env shard records))

theorem BuilderState.tracks_start : BuilderState.start.Tracks env [] := by
  refine ⟨rfl, fun shard => ⟨?_, rfl, ⟨rfl, rfl⟩, by simp [shardOf, pageCut, PageCut.start]⟩⟩
  simp [BuilderState.start, PartitionBuild.empty, shardOf, pageCut, PageCut.start]

theorem encodeRecord_of_fits (fits : record.Fits) : encodeRecord record = .ok (recordBytes record) :=
  encodeRecord_eq_ok_iff.mpr ⟨⟨fits.encodable.keyLength, fits.encodable.valueLength⟩, rfl⟩

theorem push_tracks (compresses : env.Compresses) (tracks : state.Tracks env records)
    (admissible : Admissible env (records ++ [record]))
    (encodes : ∀ page, (pageCut (shardOf env (partition env record.key) records)).Writes record page →
      Encodes env page) :
    ∃ ops next, (state.push env record).collect = (ops, .ok next) ∧
      next.Tracks env (records ++ [record]) := by
  have fit := admissible.fits record (by simp)
  have before := admissible.of_append
  have ordered : ¬ ∃ last ∈ state.previous, record.version ≤ last := by
    intro ⟨last, known, low⟩
    rw [tracks.previous] at known
    obtain ⟨earlier, isLast, rfl⟩ := Option.map_eq_some_iff.mp known
    have less := (List.pairwise_append.mp admissible.sorted).2.2 earlier (List.mem_of_getLast? isLast)
      record (by simp)
    exact not_lt_of_ge low less
  obtain ⟨ops, room, roomed, after⟩ := makeRoom_tracks compresses
    (tracks.parts (partition env record.key)) (before.sane _) fit encodes
  let part : PartitionBuild :=
    { room with page := room.page ++ recordBytes record, count := room.count + 1 }
  refine ⟨ops, ⟨Function.update state.parts (partition env record.key) part, some record.version⟩,
    ?_, ⟨by simp, ?_⟩⟩
  · rw [BuilderState.push]
    refine Prog.collect_guard.mpr ⟨fit.key, Prog.collect_guard.mpr ⟨ordered, Prog.collect_guard.mpr
      ⟨Nat.not_lt.mpr fit.size, ?_⟩⟩⟩
    simp only [Prog.bind_eq, Prog.liftM_eq]
    exact Prog.collect_ofExcept_bind.mpr ⟨_, encodeRecord_of_fits fit,
      Prog.collect_bind_eq_ok.mpr ⟨ops, room, [], roomed, rfl, by simp⟩⟩
  · intro shard
    by_cases same : shard = partition env record.key
    · subst same
      have pushed : shardOf env (partition env record.key) (records ++ [record]) =
          shardOf env (partition env record.key) records ++ [record] := by
        simp [shardOf]
      rw [pushed, pageCut_snoc]
      simp only [Function.update_self]
      exact ⟨by simp [part, PageCut.push, after.page], by simp [part, PageCut.push, after.count],
        ⟨after.indexed.leaf, after.indexed.parents⟩, after.encoded⟩
    · have kept : shardOf env shard (records ++ [record]) = shardOf env shard records := by
        simp [shardOf, Ne.symm same]
      rw [kept]
      simp only [Function.update_of_ne same]
      exact tracks.parts shard

theorem push_encodes {ops : List EncodedObject} {next : BuilderState} {page : List Record}
    (tracks : state.Tracks env records) (granted : (state.push env record).collect = (ops, .ok next))
    (writes : (pageCut (shardOf env (partition env record.key) records)).Writes record page) :
    Encodes env page := by
  rw [BuilderState.push] at granted
  obtain ⟨_, granted⟩ := Prog.collect_guard.mp granted
  obtain ⟨_, granted⟩ := Prog.collect_guard.mp granted
  obtain ⟨_, granted⟩ := Prog.collect_guard.mp granted
  simp only [Prog.bind_eq, Prog.liftM_eq] at granted
  obtain ⟨encoded, encoding, granted⟩ := Prog.collect_ofExcept_bind.mp granted
  obtain ⟨_, _, _, roomed, _⟩ := Prog.collect_bind_eq_ok.mp granted
  rw [(encodeRecord_eq_ok_iff.mp encoding).2] at roomed
  exact makeRoom_encodes (tracks.parts _) roomed writes

/-- The page a record makes the builder write is a page of the cut. -/
theorem writes_mem {page : List Record}
    (writes : (pageCut (shardOf env (partition env record.key) records)).Writes record page)
    (more : List Record) :
    page ∈ (pageCut (shardOf env (partition env record.key) (records ++ record :: more))).pages := by
  obtain ⟨full, nonempty, rfl⟩ := writes
  have split : shardOf env (partition env record.key) (records ++ record :: more) =
      (shardOf env (partition env record.key) records ++ [record]) ++
        shardOf env (partition env record.key) more := by
    simp [shardOf]
  rw [split]
  refine (pageCut_pages_append _ _).subset ?_
  rw [pageCut_snoc, PageCut.push, PageCut.room, if_pos full, PageCut.close, if_neg nonempty]
  simp

theorem pushAll_tracks (compresses : env.Compresses) (tracks : state.Tracks env records)
    (admissible : Admissible env (records ++ more))
    (encodes : ∀ shard, ∀ page ∈ (pageCut (shardOf env shard (records ++ more))).pages,
      Encodes env page) :
    ∃ ops next, (state.pushAll env more).collect = (ops, .ok next) ∧
      next.Tracks env (records ++ more) := by
  induction more generalizing state records with
  | nil => exact ⟨[], state, rfl, by rw [List.append_nil]; exact tracks⟩
  | cons record more ih =>
      have split : records ++ record :: more = (records ++ [record]) ++ more := by simp
      have fitting := admissible
      rw [split] at fitting
      obtain ⟨ops, next, pushed, after⟩ := push_tracks compresses tracks fitting.of_append
        (fun page writes => encodes _ page (writes_mem writes more))
      rw [split] at encodes
      obtain ⟨later, final, rest, done⟩ := ih after fitting encodes
      rw [split]
      exact ⟨ops ++ later, final, Prog.collect_bind_eq_ok.mpr ⟨ops, next, later, pushed, rest, rfl⟩, done⟩

theorem pushAll_granted {ops : List EncodedObject} {next : BuilderState}
    (compresses : env.Compresses) (tracks : state.Tracks env records)
    (admissible : Admissible env (records ++ more))
    (granted : (state.pushAll env more).collect = (ops, .ok next)) :
    next.Tracks env (records ++ more) := by
  induction more generalizing state records ops with
  | nil =>
      cases granted
      rw [List.append_nil]
      exact tracks
  | cons record more ih =>
      have split : records ++ record :: more = (records ++ [record]) ++ more := by simp
      rw [split] at admissible ⊢
      obtain ⟨_, middle, _, pushed, rest, _⟩ := Prog.collect_bind_eq_ok.mp granted
      obtain ⟨_, found, again, after⟩ := push_tracks compresses tracks admissible.of_append
        (fun page writes => push_encodes tracks pushed writes)
      rw [pushed] at again
      cases again
      exact ih after admissible rest

/-! Finishing. -/

theorem closePartitions_tracks {parts : Fin 16 → PartitionBuild} {cuts : Fin 16 → PageCut}
    (compresses : env.Compresses) (tracks : ∀ shard, (parts shard).Tracks env (cuts shard))
    (sane : ∀ shard, (cuts shard).Sane)
    (encodes : ∀ shard, ∀ page ∈ (cuts shard).close.pages, Encodes env page)
    (shards : List (Fin 16)) :
    ∃ ops closed, (closePartitions env parts shards).collect = (ops, .ok closed) ∧
      ∀ part ∈ closed, entriesSize (part.parents.map Fence.version) ≤ maxIndexBytes := by
  induction shards with
  | nil => exact ⟨[], [], rfl, by simp⟩
  | cons shard shards ih =>
      obtain ⟨later, others, rest, bounded⟩ := ih
      obtain ⟨first, flushed, flushing, after⟩ := flushPage_tracks compresses (tracks shard)
        (sane shard) (by
          intro nonempty
          refine encodes shard _ ?_
          rw [PageCut.close, if_neg nonempty]
          simp)
      obtain ⟨second, closed, closing, _, parents, _⟩ := @emitLeaf_indexed env flushed _ after.indexed
        (sane shard).fences (sane shard).rising
      refine ⟨first ++ (second ++ later), closed :: others, ?_, ?_⟩
      · exact Prog.collect_bind_eq_ok.mpr ⟨first, flushed, _, flushing, Prog.collect_bind_eq_ok.mpr
          ⟨second, closed, later, closing, Prog.collect_bind_eq_ok.mpr
            ⟨later, others, [], rest, rfl, by simp⟩, rfl⟩, rfl⟩
      · intro part member
        obtain rfl | other := List.mem_cons.mp member
        · rw [parents]
          exact (sane shard).fences.internal
        · exact bounded part other

theorem closePartitions_encodes {parts : Fin 16 → PartitionBuild} {cuts : Fin 16 → PageCut}
    {shards : List (Fin 16)} {ops : List EncodedObject} {closed : List PartitionBuild}
    (tracks : ∀ shard, (parts shard).Tracks env (cuts shard))
    (granted : (closePartitions env parts shards).collect = (ops, .ok closed)) :
    ∀ shard ∈ shards, ∀ page ∈ (cuts shard).close.pages, Encodes env page := by
  induction shards generalizing ops closed with
  | nil => simp
  | cons shard shards ih =>
      obtain ⟨_, flushed, _, flushing, granted, _⟩ := Prog.collect_bind_eq_ok.mp granted
      obtain ⟨_, _, _, _, granted, _⟩ := Prog.collect_bind_eq_ok.mp granted
      obtain ⟨_, _, _, rest, _⟩ := Prog.collect_bind_eq_ok.mp granted
      intro other member page isPage
      obtain rfl | later := List.mem_cons.mp member
      · unfold PageCut.close at isPage
        split at isPage
        · exact (tracks other).encoded page isPage
        · rename_i nonempty
          obtain old | new := List.mem_append.mp isPage
          · exact (tracks other).encoded page old
          · rw [List.mem_singleton.mp new]
            exact flushPage_encodes (tracks other) nonempty flushing
      · exact ih rest other later page isPage

theorem partitionRefs_bounded {closed : List PartitionBuild}
    (bounded : ∀ part ∈ closed, entriesSize (part.parents.map Fence.version) ≤ maxIndexBytes) :
    ∃ ops references, (partitionRefs env closed).collect = (ops, .ok references) ∧
      references.length = closed.length := by
  induction closed with
  | nil => exact ⟨[], [], rfl, rfl⟩
  | cons part closed ih =>
      obtain ⟨later, others, rest, length⟩ := ih (fun other member =>
        bounded other (List.mem_cons_of_mem _ member))
      have one : ∃ ops reference, (partitionRef env part.parents).collect = (ops, .ok reference) := by
        unfold partitionRef
        split
        · exact ⟨[], _, rfl⟩
        · exact ⟨[], _, rfl⟩
        · obtain ⟨bytes, object, encoded, made⟩ := @index_made env _ internalMagic rfl
            (bounded part (by simp))
          exact ⟨[object], object.reference, Prog.collect_ofExcept_bind.mpr ⟨bytes, encoded,
            Prog.collect_ofExcept_bind.mpr ⟨object, made,
              Prog.collect_request_bind.mpr ⟨(), [], rfl, rfl, rfl⟩⟩⟩⟩
      obtain ⟨first, reference, referred⟩ := one
      exact ⟨first ++ later, reference :: others, Prog.collect_bind_eq_ok.mpr ⟨first, reference, later,
        referred, Prog.collect_bind_eq_ok.mpr ⟨later, others, [], rest, rfl, by simp⟩, rfl⟩,
        by simp [length]⟩

theorem closePartitions_length {parts : Fin 16 → PartitionBuild} {shards : List (Fin 16)}
    {ops : List EncodedObject} {closed : List PartitionBuild}
    (granted : (closePartitions env parts shards).collect = (ops, .ok closed)) :
    closed.length = shards.length := by
  induction shards generalizing ops closed with
  | nil =>
      cases granted
      rfl
  | cons shard shards ih =>
      obtain ⟨_, _, _, _, granted, _⟩ := Prog.collect_bind_eq_ok.mp granted
      obtain ⟨_, _, _, _, granted, _⟩ := Prog.collect_bind_eq_ok.mp granted
      obtain ⟨_, _, _, rest, done, _⟩ := Prog.collect_bind_eq_ok.mp granted
      cases done
      simp [ih rest]

theorem finish_tracks (compresses : env.Compresses) (tracks : state.Tracks env records)
    (admissible : Admissible env records) (encodes : PagesEncode env records) :
    ∃ ops root, (state.finish env).collect = (ops, .ok root) := by
  obtain ⟨first, closed, closing, bounded⟩ := closePartitions_tracks compresses tracks.parts
    admissible.sane encodes (List.finRange 16)
  obtain ⟨second, references, referring, length⟩ := @partitionRefs_bounded env closed bounded
  have count : references.length = partitions := by
    rw [length, closePartitions_length closing]
    rfl
  obtain ⟨object, made⟩ := @makeObject_of_length env (encodeRoot references) (by
    rw [encodeRoot_length count]
    decide)
  exact ⟨first ++ (second ++ [object]), object.reference, Prog.collect_bind_eq_ok.mpr
    ⟨first, closed, _, closing, Prog.collect_bind_eq_ok.mpr ⟨second, references, [object], referring,
      Prog.collect_ofExcept_bind.mpr ⟨object, made,
        Prog.collect_request_bind.mpr ⟨(), [], rfl, rfl, rfl⟩⟩, rfl⟩, rfl⟩⟩

theorem finish_encodes {ops : List EncodedObject} {root : ObjectRef} (tracks : state.Tracks env records)
    (granted : (state.finish env).collect = (ops, .ok root)) : PagesEncode env records := by
  obtain ⟨_, _, _, closing, _⟩ := Prog.collect_bind_eq_ok.mp granted
  intro shard
  exact closePartitions_encodes tracks.parts closing shard (List.mem_finRange shard)

/-- Admissible input is built exactly when all its pages can be written. -/
theorem build_ok_iff (compresses : env.Compresses) (admissible : Admissible env records) :
    (∃ objects root, (RunBuilder.build env records).collect = (objects, .ok root)) ↔
      PagesEncode env records := by
  constructor
  · intro ⟨objects, root, granted⟩
    obtain ⟨_, state, _, pushed, finished, _⟩ := Prog.collect_bind_eq_ok.mp granted
    have tracks := pushAll_granted compresses BuilderState.tracks_start
      (by rw [List.nil_append]; exact admissible) pushed
    rw [List.nil_append] at tracks
    exact finish_encodes tracks finished
  · intro encodes
    obtain ⟨first, state, pushed, tracks⟩ := pushAll_tracks compresses BuilderState.tracks_start
      (by rw [List.nil_append]; exact admissible) (by
        intro shard page member
        rw [List.nil_append] at member
        refine encodes shard page ?_
        unfold pagesOf PageCut.close
        split
        · exact member
        · exact List.mem_append_left _ member)
    rw [List.nil_append] at tracks
    obtain ⟨second, root, finished⟩ := finish_tracks compresses tracks admissible encodes
    exact ⟨first ++ second, root, Prog.collect_bind_eq_ok.mpr
      ⟨first, state, second, pushed, finished, rfl⟩⟩

end

end Fossil

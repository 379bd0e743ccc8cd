import Fossil.RunLookup

/-! Scanning a written run.

A cursor stands somewhere in the tree of its partition; what lies ahead of it is
the rest of the current page, the pages left in its leaf and the leaves left
under its parent. The scanner merges the sixteen partitions, so it gives the
records of the run in order. -/

namespace Fossil

section

variable {env : Primitives} {served : EncodedObject → Prop} {bad : Error → Prop} {shard : Fin 16}

/-- What a started cursor has yet to give: records, then pages, then leaves. -/
structure Tail (env : Primitives) where
  current : List Record
  pages : List (Page env)
  leaves : List (Leaf env)

def Tail.records (tail : Tail env) : List Record :=
  tail.current ++ (tail.pages.flatMap Page.records ++ tail.leaves.flatMap Leaf.records)

/-- The records behind the current page. -/
def Tail.unread (tail : Tail env) : List Record :=
  tail.pages.flatMap Page.records ++ tail.leaves.flatMap Leaf.records

structure Tail.Readable (tail : Tail env) (served : EncodedObject → Prop) (shard : Fin 16) : Prop where
  routed : Routed env shard tail.records
  pages : ∀ page ∈ tail.pages, served page.object
  leaves : ∀ leaf ∈ tail.leaves, ∀ object ∈ leaf.objects, served object

/-- A started cursor stands before this tail. -/
structure PartitionCursor.Before (cursor : PartitionCursor) (tail : Tail env) : Prop where
  initialized : cursor.initialized = true
  page : cursor.page = tail.current
  leaf : cursor.leaf.drop cursor.fencePos = tail.pages.map Page.fence
  fence : cursor.fencePos ≤ cursor.leaf.length
  parents : cursor.parents.drop cursor.parentPos = tail.leaves.map Leaf.fence
  previous : ∀ last ∈ cursor.previous, ∀ record ∈ tail.records, last < record.version
  previousFence : ∀ last ∈ cursor.previousFence, ∀ record ∈ tail.unread, last < record.version

/-- A cursor, started or not, with the records it has yet to give. -/
def PartitionCursor.Ahead (env : Primitives) (served : EncodedObject → Prop) (shard : Fin 16)
    (cursor : PartitionCursor) (records : List Record) : Prop :=
  (∃ part : Partition env, cursor = .new part.reference ∧ part.records = records ∧
    Routed env shard part.records ∧ ∀ object ∈ part.objects, served object) ∨
  (∃ tail : Tail env, cursor.Before tail ∧ tail.Readable served shard ∧ tail.records = records)

theorem openRoot_meets (serving : Serving env served bad) {cursor : PartitionCursor}
    {records : List Record} (ahead : cursor.Ahead env served shard records) :
    (cursor.openRoot env shard).Meets (Serves served bad) (Yields bad (fun started =>
      ∃ tail : Tail env, started.Before tail ∧ tail.Readable served shard ∧ tail.records = records)) := by
  unfold PartitionCursor.openRoot
  rcases ahead with ⟨part, rfl, rfl, routed, present⟩ | ⟨tail, before, readable, same⟩
  · have unstarted : ¬ (PartitionCursor.new part.reference).initialized = true := Bool.false_ne_true
    simp only [if_neg unstarted, Prog.bind_eq, Prog.liftM_eq]
    apply enter_meets serving part routed present
    · intro empty
      subst empty
      exact yields_ok ⟨⟨[], [], []⟩, ⟨rfl, rfl, rfl, Nat.le_refl _, rfl, by simp [PartitionCursor.new],
        by simp [PartitionCursor.new]⟩, ⟨routed, by simp, by simp⟩, rfl⟩
    · intro leaf same leafRouted
      subst same
      have whole : Partition.records (.single leaf) = leaf.records := by
        simp [Partition.records, Partition.leaves]
      have left : Tail.records ⟨[], leaf.pages, []⟩ = leaf.records := by
        simp [Tail.records, Leaf.records]
      rw [whole]
      apply opens_bind serving (leaf.decode leafRouted present)
      refine yields_ok ⟨⟨[], leaf.pages, []⟩, ⟨rfl, rfl, rfl, Nat.zero_le _, rfl,
        by simp [PartitionCursor.new], by simp [PartitionCursor.new]⟩, ⟨?_, ?_, by simp⟩, left⟩
      · rw [left]
        exact leafRouted
      · intro page member
        exact present _ (List.mem_cons_of_mem _ (List.mem_map_of_mem member))
    · intro leaves object many index made same inLeaves
      subst same
      exact yields_ok ⟨⟨[], [], leaves⟩, ⟨rfl, rfl, rfl, Nat.le_refl _, rfl, by simp [PartitionCursor.new],
        by simp [PartitionCursor.new]⟩, ⟨routed, by simp, inLeaves⟩, rfl⟩
  · rw [if_pos before.initialized]
    exact yields_ok ⟨tail, before, readable, same⟩

theorem fencePos_eq_length_iff {cursor : PartitionCursor} {tail : Tail env}
    (before : cursor.Before tail) : cursor.fencePos = cursor.leaf.length ↔ tail.pages = [] := by
  have width := congrArg List.length before.leaf
  rw [List.length_drop, List.length_map] at width
  have bound := before.fence
  rw [← List.length_eq_zero_iff]
  omega

/-- Moving on to the next leaf leaves the same records ahead. -/
theorem advanceLeaf_meets (serving : Serving env served bad) {cursor : PartitionCursor}
    {tail : Tail env} (before : cursor.Before tail) (readable : tail.Readable served shard)
    (used : tail.current = []) :
    (cursor.advanceLeaf env shard).Meets (Serves served bad) (Yields bad (fun placed =>
      ∃ tail' : Tail env, placed.Before tail' ∧ tail'.Readable served shard ∧
        tail'.records = tail.records ∧ tail'.current = [] ∧ (tail'.pages = [] → tail'.leaves = []))) := by
  unfold PartitionCursor.advanceLeaf
  by_cases more : cursor.fencePos = cursor.leaf.length
  · have noPages := (fencePos_eq_length_iff before).mp more
    rw [if_neg (fun differs => differs more)]
    rcases tail with ⟨current, pages, leaves⟩
    simp only at used noPages
    subst used noPages
    have next : cursor.parents[cursor.parentPos]? = (leaves.map Leaf.fence).head? := by
      rw [← before.parents, List.head?_drop]
    cases leaves with
    | nil =>
        simp only [next, List.map_nil, List.head?_nil]
        exact yields_ok ⟨⟨[], [], []⟩, ⟨before.initialized, before.page, rfl, Nat.le_refl _,
          before.parents, before.previous, before.previousFence⟩, readable, rfl, rfl, fun _ => rfl⟩
    | cons leaf leaves =>
        have here := readable.leaves leaf List.mem_cons_self
        have stored : served leaf.object := here _ List.mem_cons_self
        have sub : leaf.records.Sublist (Tail.records ⟨[], [], leaf :: leaves⟩) :=
          List.sublist_append_left _ _
        have decoded := leaf.decode (readable.routed.sublist sub) here
        have entry : ¬ (leaf.pages.map Page.fence).head?.map Fence.version ≠ some leaf.fence.version :=
          fun differs => differs rfl
        have same : Tail.records ⟨[], leaf.pages, leaves⟩ = Tail.records ⟨[], [], leaf :: leaves⟩ := rfl
        simp only [next, List.map_cons, List.head?_cons, Leaf.fence_data]
        apply opens_bind serving (validateIndexRef_opens stored leaf.within)
        apply fetchAs_meets serving stored
        apply opens_bind serving decoded
        rw [if_neg entry]
        refine yields_ok ⟨⟨[], leaf.pages, leaves⟩, ⟨before.initialized, before.page, rfl, Nat.zero_le _,
          ?_, before.previous, before.previousFence⟩, ⟨readable.routed, ?_, ?_⟩, same, rfl, ?_⟩
        · rw [← List.drop_drop, before.parents]
          rfl
        · intro page member
          exact here _ (List.mem_cons_of_mem _ (List.mem_map_of_mem member))
        · exact fun other member => readable.leaves other (List.mem_cons_of_mem _ member)
        · intro impossible
          cases impossible
  · rw [if_pos more]
    exact yields_ok ⟨tail, before, readable, rfl, used, fun noPages =>
      absurd ((fencePos_eq_length_iff before).mpr noPages) more⟩

/-- Loading the page behind the next fence. -/
theorem loadPage_meets (serving : Serving env served bad) {cursor : PartitionCursor}
    {page : Page env} {pages : List (Page env)} {leaves : List (Leaf env)}
    (before : cursor.Before ⟨[], page :: pages, leaves⟩)
    (readable : Tail.Readable ⟨[], page :: pages, leaves⟩ served shard) :
    (cursor.loadPage env shard page.fence).Meets (Serves served bad) (Yields bad (fun loaded =>
      loaded.Before ⟨page.records, pages, leaves⟩ ∧
        Tail.Readable ⟨page.records, pages, leaves⟩ served shard)) := by
  have stored : served page.object := readable.pages page List.mem_cons_self
  have first : page.first ∈ Tail.records ⟨[], page :: pages, leaves⟩ := List.mem_cons_self
  have fencesOrdered : ¬ ∃ last ∈ cursor.previousFence, page.fence.version ≤ last :=
    not_above_iff.mpr (fun last known => before.previousFence last known page.first first)
  have pagesOrdered : ¬ ∃ last ∈ cursor.previous, page.fence.version ≤ last :=
    not_above_iff.mpr (fun last known => before.previous last known page.first first)
  have sub : page.records.Sublist (Tail.records ⟨[], page :: pages, leaves⟩) := by
    simp only [Tail.records, List.nil_append, List.flatMap_cons, List.append_assoc]
    exact List.sublist_append_left _ _
  have decoded := page.decode serving.lossless (readable.routed.sublist sub)
  have entry : ¬ page.records.head?.map Record.version ≠ some page.fence.version :=
    fun differs => differs rfl
  have same : Tail.records ⟨page.records, pages, leaves⟩ = Tail.records ⟨[], page :: pages, leaves⟩ := by
    simp [Tail.records]
  unfold PartitionCursor.loadPage
  simp only [if_neg fencesOrdered, Page.fence_data, Prog.bind_eq, Prog.liftM_eq]
  apply validData_meets serving stored
  apply fetchAs_meets serving stored
  rw [decoded, Prog.ofExcept_ok, Prog.ret_bind, if_neg entry, if_neg pagesOrdered]
  refine yields_ok ⟨⟨before.initialized, rfl, ?_, ?_, before.parents, ?_, ?_⟩, ⟨?_, ?_, readable.leaves⟩⟩
  · rw [← List.drop_drop, before.leaf]
    rfl
  · have width := congrArg List.length before.leaf
    rw [List.length_drop, List.length_map, List.length_cons] at width
    simp only
    omega
  · intro last known record member
    rw [same] at member
    exact before.previous last known record member
  · intro last known record member
    cases known
    have sorted := readable.routed.sorted
    rw [← same] at sorted
    exact (List.pairwise_append.mp sorted).2.2 page.first List.mem_cons_self record member
  · rw [same]
    exact readable.routed
  · exact fun other member => readable.pages other (List.mem_cons_of_mem _ member)

/-- A cursor made ready shows the next record, if there is one. -/
theorem ready_meets (serving : Serving env served bad) {cursor : PartitionCursor}
    {records : List Record} (ahead : cursor.Ahead env served shard records) :
    (cursor.ready env shard).Meets (Serves served bad) (Yields bad (fun filled =>
      ∃ tail : Tail env, filled.Before tail ∧ tail.Readable served shard ∧ tail.records = records ∧
        filled.page.head? = records.head?)) := by
  unfold PartitionCursor.ready
  apply yields_bind (openRoot_meets serving ahead)
  intro started ⟨tail, before, readable, same⟩
  subst same
  by_cases empty : started.page = []
  · rw [if_neg (fun nonempty => nonempty empty)]
    apply yields_bind (advanceLeaf_meets serving before readable (before.page.symm.trans empty))
    intro placed ⟨tail', before', readable', same, used, exhausted⟩
    rw [← same]
    rcases tail' with ⟨current, pages, leaves⟩
    simp only at used exhausted
    subst used
    have next : placed.leaf[placed.fencePos]? = (pages.map Page.fence).head? := by
      rw [← before'.leaf, List.head?_drop]
    cases pages with
    | nil =>
        have noLeaves := exhausted rfl
        subst noLeaves
        simp only [next, List.map_nil, List.head?_nil]
        exact yields_ok ⟨_, before', readable', rfl, by rw [before'.page]; rfl⟩
    | cons page pages =>
        simp only [next, List.map_cons, List.head?_cons]
        apply (loadPage_meets serving before' readable').weaken
        intro outcome yielded
        rcases yielded with ⟨loaded, rfl, before'', readable''⟩ | failed
        · refine yields_ok ⟨_, before'', readable'', ?_, ?_⟩
          · simp [Tail.records]
          · rw [before''.page]
            rfl
        · exact .inr failed
  · rw [if_pos empty]
    refine yields_ok ⟨tail, before, readable, rfl, ?_⟩
    rw [before.page] at empty ⊢
    rw [Tail.records, List.head?_append_of_ne_nil _ empty]

theorem readyAll_meets (serving : Serving env served bad)
    {cursors : List (Fin 16 × PartitionCursor)} {sources : List (List Record)}
    (ahead : List.Forall₂ (fun cursor source => cursor.2.Ahead env served cursor.1 source)
      cursors sources) :
    (readyAll env cursors).Meets (Serves served bad) (Yields bad (fun filled =>
      List.Forall₂ (fun cursor source => (∃ tail : Tail env, cursor.2.Before tail ∧
        tail.Readable served cursor.1 ∧ tail.records = source) ∧
        cursor.2.page.head? = source.head?) filled sources)) := by
  induction ahead with
  | nil => exact yields_ok .nil
  | @cons cursor source cursors sources first _ ih =>
      apply yields_bind (ready_meets serving first)
      intro filled ⟨tail, before, readable, same, front⟩
      apply yields_bind ih
      intro others rest
      exact yields_ok (.cons ⟨⟨tail, before, readable, same⟩, front⟩ rest)

/-- Taking the front record off a ready cursor. -/
theorem pop_ahead {cursor : PartitionCursor} {tail : Tail env} {record : Record}
    {rest : List Record} (before : cursor.Before tail) (readable : tail.Readable served shard)
    (same : tail.records = record :: rest) (front : cursor.page.head? = some record) :
    (cursor.pop record).Ahead env served shard rest := by
  rcases tail with ⟨current, pages, leaves⟩
  rw [before.page] at front
  rcases List.head?_eq_some_iff.mp front with ⟨more, shape⟩
  simp only at shape
  subst shape
  have remaining : Tail.records ⟨more, pages, leaves⟩ = rest := (List.cons.inj same).2
  have sorted := readable.routed.sorted
  have sub : (Tail.records ⟨more, pages, leaves⟩).Sublist
      (Tail.records ⟨record :: more, pages, leaves⟩) := List.sublist_cons_self _ _
  refine .inr ⟨⟨more, pages, leaves⟩, ⟨before.initialized, ?_, before.leaf, before.fence,
    before.parents, ?_, before.previousFence⟩, ⟨readable.routed.sublist sub, readable.pages,
    readable.leaves⟩, remaining⟩
  · simp [PartitionCursor.pop, before.page]
  · intro last known later member
    cases known
    exact (List.pairwise_cons.mp sorted).1 later member

/-- Changing one pair of two related lists. -/
theorem forall₂_modify_set {α β : Type} {related kept : α → β → Prop} {left : List α} {right : List β}
    (all : List.Forall₂ related left right) (weaker : ∀ a b, related a b → kept a b)
    {index : Nat} {change : α → α} {old new : β} (found : right[index]? = some old)
    (changed : ∀ a, related a old → kept (change a) new) :
    List.Forall₂ kept (left.modify index change) (right.set index new) := by
  induction all generalizing index with
  | nil => cases found
  | cons first rest ih =>
      cases index with
      | zero =>
          cases found
          exact .cons (changed _ first) (rest.imp weaker)
      | succ index => exact .cons (weaker _ _ first) (ih found)

theorem forall₂_getElem? {α β : Type} {related : α → β → Prop} {left : List α} {right : List β}
    (all : List.Forall₂ related left right) {index : Nat} {b : β} (found : right[index]? = some b) :
    ∃ a, left[index]? = some a ∧ related a b := by
  induction all generalizing index with
  | nil => cases found
  | cons first _ ih =>
      cases index with
      | zero =>
          cases found
          exact ⟨_, rfl, first⟩
      | succ index => exact ih found

/-! The scanner. -/

/-- A scanner that has yet to give these records. -/
def RunScanner.Scans (env : Primitives) (served : EncodedObject → Prop) (scanner : RunScanner)
    (records : List Record) : Prop :=
  scanner.failed = false ∧ ∃ sources, List.Forall₂ (fun cursor source =>
    cursor.2.Ahead env served cursor.1 source) scanner.cursors sources ∧
    Interleaves Record.version records sources

/-- Each call gives the next record, unless a fetch fails. -/
theorem next_meets (serving : Serving env served bad) {scanner : RunScanner} {records : List Record}
    (scans : scanner.Scans env served records) :
    (scanner.next env).Meets (Serves served bad) (fun outcome => ∃ result scanner',
      outcome = .ok (result, scanner') ∧
        (result = .ok records.head? ∧ scanner'.Scans env served records.tail ∨
          ∃ error, result = .error error ∧ bad error)) := by
  rcases scans with ⟨intact, sources, ahead, merges⟩
  unfold RunScanner.next
  rw [intact, if_neg Bool.false_ne_true]
  apply Prog.Meets.bind
  apply Prog.Meets.attempt
  apply (readyAll_meets serving ahead).weaken
  intro outcome yielded
  rcases yielded with ⟨filled, rfl, ready⟩ | ⟨error, rfl, isBad⟩
  · have fronts : filled.map (fun cursor => cursor.2.page.head?) = sources.map List.head? := by
      rw [← List.forall₂_eq_eq_eq, List.forall₂_map_left_iff, List.forall₂_map_right_iff]
      exact ready.imp (fun _ _ holds => holds.2)
    simp only [Prog.resume, fronts]
    cases found : leastFront Record.version (sources.map List.head?) with
    | none =>
        have exhausted := merges.nil (leastFront_eq_none found)
        subst exhausted
        exact ⟨_, _, rfl, .inl ⟨rfl, rfl, sources, ready.imp (fun _ _ holds => .inr holds.1), merges⟩⟩
    | some taken =>
        rcases taken with ⟨index, record⟩
        rcases merges.take (least_leastFront found) with ⟨tail, rest, source, rfl, remaining⟩
        refine ⟨_, _, rfl, .inl ⟨rfl, rfl, sources.set index tail, ?_, remaining⟩⟩
        apply forall₂_modify_set ready (fun _ _ holds => .inr holds.1) source
        rintro cursor ⟨⟨ahead, before, readable, same⟩, front⟩
        exact pop_ahead before readable same front
  · exact ⟨_, _, rfl, .inr ⟨error, rfl, isBad⟩⟩

/-- A fresh scanner has all records of the run ahead of it. -/
theorem RunTree.scanner_scans {tree : RunTree env} {records : List Record}
    {objects : List EncodedObject} (stores : tree.Stores records objects)
    (readable : tree.Readable served) : tree.reader.scanner.Scans env served records := by
  refine ⟨rfl, (List.finRange 16).map (fun shard => (tree.part shard).records), ?_, stores.sorted, ?_, ?_⟩
  · rw [RunReader.scanner, List.forall₂_map_left_iff, List.forall₂_map_right_iff]
    apply List.forall₂_same.mpr
    intro shard _
    exact .inl ⟨tree.part shard, by rw [tree.reader_index], rfl, readable.routed shard,
      readable.present shard⟩
  · intro source member
    rcases List.mem_map.mp member with ⟨shard, _, rfl⟩
    exact (readable.routed shard).sorted
  · have bins := perm_flatMap_filter (fun record : Record => partition env record.key)
      (List.nodup_finRange 16) (fun record (_ : record ∈ records) => List.mem_finRange _)
    simp only [stores.split, ← List.flatMap_def]
    exact bins

/-- The results of successive calls against fixed replies. -/
def RunScanner.calls (env : Primitives) (replies : ObjectRef → Result Bytes) :
    Nat → RunScanner → List (Result (Option Record))
  | 0, _ => []
  | count + 1, scanner =>
      match ((scanner.next env).run replies).2 with
      | .ok (result, rest) => result :: rest.calls env replies count
      | .error error => [.error error]

theorem RunScanner.Scans.calls {replies : ObjectRef → Result Bytes}
    (serving : Serving env served (fun _ => False))
    (answers : ∀ reference, Serves served (fun _ => False) reference (replies reference))
    {scanner : RunScanner} {records : List Record} (scans : scanner.Scans env served records)
    (count : Nat) :
    scanner.calls env replies count = (List.range count).map (fun index => .ok records[index]?) := by
  induction count generalizing scanner records with
  | zero => rfl
  | succ count ih =>
      rcases (next_meets serving scans).run answers with ⟨result, rest, called, found⟩
      rcases found with ⟨rfl, scans'⟩ | ⟨_, _, wrong⟩
      · rw [RunScanner.calls, called]
        dsimp only
        rw [ih scans', List.range_succ_eq_map, List.map_cons, List.map_map, List.head?_eq_getElem?]
        congr 1
        apply List.map_congr_left
        intro index _
        rw [Function.comp_apply, List.getElem?_tail]
      · exact wrong.elim

/-- Scanning what a build emitted gives back its records in order, then nothing
forever. -/
theorem scan_emitted {records : List Record} {objects : List EncodedObject} {root : ObjectRef}
    (lossless : env.Lossless) (built : (RunBuilder.build env records).collect = (objects, .ok root))
    (distinct : Distinguishes env objects) :
    ∃ rootBytes reader, fetchFrom objects root = .ok rootBytes ∧
      RunReader.decode env root rootBytes = .ok reader ∧
      ∀ count, reader.scanner.calls env (fetchFrom objects) count =
        (List.range count).map (fun index => .ok records[index]?) := by
  rcases build_granted built with ⟨tree, stores, rfl⟩
  have addressed := emitted_addressed built
  have rooted := stores.fetch_root addressed distinct
  refine ⟨tree.object.bytes, tree.reader, rooted.1, rooted.2, ?_⟩
  intro count
  exact (tree.scanner_scans stores (stores.readable (fun _ member => member))).calls
    (serving_emitted lossless addressed distinct) (serves_fetchFrom addressed distinct) count

end

theorem scan_sample :
    (RunBuilder.build samplePrimitives sampleRecords).collect = (sampleObjects, .ok sampleRoot) ∧
    ∃ rootBytes reader, fetchFrom sampleObjects sampleRoot = .ok rootBytes ∧
      RunReader.decode samplePrimitives sampleRoot rootBytes = .ok reader ∧
      ∀ count, reader.scanner.calls samplePrimitives (fetchFrom sampleObjects) count =
        (List.range count).map (fun index => .ok sampleRecords[index]?) :=
  ⟨sample_built, scan_emitted samplePrimitives_lossless sample_built sample_distinguishes⟩

end Fossil

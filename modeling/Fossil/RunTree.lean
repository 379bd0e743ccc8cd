import Fossil.RunCodec
import Mathlib.Data.List.Forall2

/-! The tree a run builder leaves behind.

Pages, leaves and partitions carry the proof that their object is the encoding
of their content, so a tree cannot be written down without the objects that
store it. The builder's state denotes a tree in progress; each of its steps adds
to that tree and finishing closes it. -/

namespace Fossil

/-- A written data page. -/
structure Page (env : Primitives) where
  first : Record
  rest : List Record
  object : EncodedObject
  encoded : encodePage env (pageBytes (first :: rest)) = .ok object

namespace Page

variable {env : Primitives}

def records (page : Page env) : List Record := page.first :: page.rest

def fence (page : Page env) : Fence := ⟨page.first.key, page.first.block, page.object.reference⟩

end Page

/-- A written leaf index with its pages. -/
structure Leaf (env : Primitives) where
  first : Page env
  rest : List (Page env)
  object : EncodedObject
  indexed : encodeIndex ((first :: rest).map Page.fence) indexMagic = .ok object.bytes
  made : makeObject env object.bytes = .ok object

namespace Leaf

variable {env : Primitives}

def pages (leaf : Leaf env) : List (Page env) := leaf.first :: leaf.rest

def records (leaf : Leaf env) : List Record := leaf.pages.flatMap Page.records

def fence (leaf : Leaf env) : Fence :=
  ⟨leaf.first.first.key, leaf.first.first.block, leaf.object.reference⟩

def objects (leaf : Leaf env) : List EncodedObject := leaf.object :: leaf.pages.map Page.object

end Leaf

/-- A written partition: empty, one leaf, or several leaves under an internal index. -/
inductive Partition (env : Primitives) where
  | empty
  | single (leaf : Leaf env)
  | several (leaves : List (Leaf env)) (object : EncodedObject) (many : 2 ≤ leaves.length)
      (indexed : encodeIndex (leaves.map Leaf.fence) internalMagic = .ok object.bytes)
      (made : makeObject env object.bytes = .ok object)

namespace Partition

variable {env : Primitives}

def leaves : Partition env → List (Leaf env)
  | .empty => []
  | .single leaf => [leaf]
  | .several leaves .. => leaves

def records (part : Partition env) : List Record := part.leaves.flatMap Leaf.records

/-- The reference a root holds for the partition. -/
def reference : Partition env → ObjectRef
  | .empty => .default
  | .single leaf => leaf.object.reference
  | .several _ object .. => object.reference

def objects : Partition env → List EncodedObject
  | .empty => []
  | .single leaf => leaf.objects
  | .several leaves object .. => object :: leaves.flatMap Leaf.objects

end Partition

/-- A written run. -/
structure RunTree (env : Primitives) where
  part : Fin 16 → Partition env
  object : EncodedObject
  made : makeObject env (encodeRoot ((List.finRange 16).map (fun shard => (part shard).reference))) =
    .ok object

/-- Records that may share one partition. -/
structure Routed (env : Primitives) (shard : Fin 16) (records : List Record) : Prop where
  sorted : StrictlySorted Record.version records
  fits : ∀ record ∈ records, record.Fits
  routed : ∀ record ∈ records, partition env record.key = shard

/-- The tree stores exactly these records, with objects taken from this list. -/
structure RunTree.Stores {env : Primitives} (tree : RunTree env) (records : List Record)
    (objects : List EncodedObject) : Prop where
  sorted : StrictlySorted Record.version records
  fits : ∀ record ∈ records, record.Fits
  split : ∀ shard, (tree.part shard).records =
    records.filter (fun record => partition env record.key = shard)
  parts : ∀ shard, ∀ object ∈ (tree.part shard).objects, object ∈ objects
  root : objects.getLast? = some tree.object

section

variable {env : Primitives}

theorem Routed.sublist {shard : Fin 16} {records fewer : List Record}
    (routed : Routed env shard records) (sub : fewer.Sublist records) : Routed env shard fewer :=
  ⟨routed.sorted.sublist sub, fun record member => routed.fits record (sub.subset member),
    fun record member => routed.routed record (sub.subset member)⟩

theorem RunTree.Stores.routed {tree : RunTree env} {records : List Record}
    {objects : List EncodedObject} (stores : tree.Stores records objects) (shard : Fin 16) :
    Routed env shard (tree.part shard).records := by
  rw [stores.split]
  refine ⟨stores.sorted.sublist List.filter_sublist, ?_, ?_⟩
  · intro record member
    exact stores.fits record (List.mem_of_mem_filter member)
  · intro record member
    exact of_decide_eq_true (List.mem_filter.mp member).2

/-! The builder's state as a tree in progress. -/

/-- Closed leaves, pages of the open leaf and records of the open page. -/
structure Progress (env : Primitives) where
  leaves : List (Leaf env)
  pages : List (Page env)
  current : List Record

namespace Progress

def start : Progress env := ⟨[], [], []⟩

def records (progress : Progress env) : List Record :=
  progress.leaves.flatMap Leaf.records ++ progress.pages.flatMap Page.records ++ progress.current

def objects (progress : Progress env) : List EncodedObject :=
  progress.leaves.flatMap Leaf.objects ++ progress.pages.map Page.object

end Progress

structure PartitionBuild.Denotes (part : PartitionBuild) (progress : Progress env) : Prop where
  parents : part.parents = progress.leaves.map Leaf.fence
  leaf : part.leaf = progress.pages.map Page.fence
  page : part.page = dataPageStart ++ progress.current.flatMap recordBytes
  count : part.count = progress.current.length

/-- What one builder step does to a partition: the records stay, and every
object of the tree was there before or is emitted now. -/
structure Advances (old new : Progress env) (emitted : List EncodedObject) : Prop where
  records : new.records = old.records
  objects : ∀ object ∈ new.objects, object ∈ old.objects ∨ object ∈ emitted

theorem Advances.refl (progress : Progress env) : Advances progress progress [] :=
  ⟨rfl, fun _ member => .inl member⟩

theorem Advances.trans {first second third : Progress env} {early late : List EncodedObject}
    (before : Advances first second early) (after : Advances second third late) :
    Advances first third (early ++ late) := by
  refine ⟨after.records.trans before.records, ?_⟩
  intro object member
  rcases after.objects object member with old | new
  · rcases before.objects object old with older | newer
    · exact .inl older
    · exact .inr (List.mem_append_left _ newer)
  · exact .inr (List.mem_append_right _ new)

theorem emitLeaf_granted {part next : PartitionBuild} {progress : Progress env}
    {ops : List EncodedObject} (denotes : part.Denotes progress)
    (granted : (emitLeaf env part).collect = (ops, .ok next)) :
    ∃ progress', next.Denotes progress' ∧ Advances progress progress' ops ∧
      progress'.pages = [] ∧ progress'.current = progress.current := by
  unfold emitLeaf at granted
  rcases progress with ⟨leaves, pages, current⟩
  cases pages with
  | nil =>
      rw [denotes.leaf] at granted
      cases granted
      exact ⟨_, denotes, .refl _, rfl, rfl⟩
  | cons page pages =>
      have shape : part.leaf = page.fence :: pages.map Page.fence := denotes.leaf
      simp only [shape, Prog.bind_eq, Prog.liftM_eq] at granted
      rcases Prog.collect_ofExcept_bind.mp granted with ⟨bytes, indexed, making⟩
      rcases Prog.collect_ofExcept_bind.mp making with ⟨object, made, guarded⟩
      rcases Prog.collect_guard.mp guarded with ⟨_, guarded⟩
      rcases Prog.collect_guard.mp guarded with ⟨_, asked⟩
      rcases Prog.collect_request_bind.mp asked with ⟨_, _, _, done, rfl⟩
      cases done
      have same := (verifyObject_makeObject made).1
      let leaf : Leaf env := ⟨page, pages, object, by rw [same]; exact indexed, by rw [same]; exact made⟩
      refine ⟨⟨leaves ++ [leaf], [], current⟩, ⟨?_, rfl, denotes.page, denotes.count⟩, ⟨?_, ?_⟩, rfl, rfl⟩
      · simp only [denotes.parents, List.map_append, List.map_cons, List.map_nil]
        rfl
      · simp [Progress.records, leaf, Leaf.records, Leaf.pages]
      · intro member present
        simp only [Progress.objects, List.flatMap_append, List.flatMap_cons, List.flatMap_nil,
          List.append_nil, List.map_nil, List.mem_append] at present ⊢
        rcases present with old | new
        · exact .inl (.inl old)
        · rcases List.mem_cons.mp new with rfl | page
          · exact .inr (by simp)
          · exact .inl (.inr page)

theorem appendLeafFence_granted {part next : PartitionBuild} {progress : Progress env}
    {page : Page env} {ops : List EncodedObject} (denotes : part.Denotes progress)
    (granted : (appendLeafFence env part page.fence).collect = (ops, .ok next)) :
    ∃ progress', Advances progress progress' ops ∧ progress'.current = progress.current ∧
      next.Denotes { progress' with pages := progress'.pages ++ [page] } := by
  unfold appendLeafFence at granted
  split at granted
  · cases granted
    refine ⟨progress, .refl _, rfl, ⟨denotes.parents, ?_, denotes.page, denotes.count⟩⟩
    simp [denotes.leaf]
  · rcases Prog.collect_guard.mp granted with ⟨_, closing⟩
    rcases Prog.collect_bind_eq_ok.mp closing with ⟨_, closed, _, emitted, guarded, rfl⟩
    rcases Prog.collect_guard.mp guarded with ⟨_, done⟩
    cases done
    rcases emitLeaf_granted denotes emitted with ⟨progress', denotes', advances, _, current⟩
    refine ⟨progress', ?_, current, ⟨denotes'.parents, ?_, denotes'.page, denotes'.count⟩⟩
    · rw [List.append_nil]
      exact advances
    · simp [denotes'.leaf]

theorem PartitionBuild.Denotes.finished {part : PartitionBuild} {progress : Progress env}
    (denotes : part.Denotes progress) : part.finished = pageBytes progress.current := by
  rw [PartitionBuild.finished, denotes.page, denotes.count, pageBytes]
  rfl

/-- The first record of the open page is read back from its bytes. -/
theorem decodeFirstRecord_pageBytes {first found : Record} {rest : List Record}
    (sorted : StrictlySorted Record.version (first :: rest))
    (fits : ∀ record ∈ first :: rest, record.Fits)
    (small : (pageBytes (first :: rest)).length ≤ maxPageBytes)
    (decoded : decodeFirstRecord env (pageBytes (first :: rest)) = .ok found) : found = first := by
  have parsed : parseDataPayload env (pageBytes (first :: rest)) none = .ok (first :: rest) :=
    parseDataPayload_pageBytes (List.cons_ne_nil first rest) small sorted fits (by simp)
  unfold decodeFirstRecord at decoded
  rw [parsed, ok_bind] at decoded
  exact (Except.ok.inj decoded).symm

theorem flushPage_granted {part next : PartitionBuild} {progress : Progress env}
    {ops : List EncodedObject} (denotes : part.Denotes progress)
    (sorted : StrictlySorted Record.version progress.records)
    (fits : ∀ record ∈ progress.records, record.Fits)
    (granted : (flushPage env part).collect = (ops, .ok next)) :
    ∃ progress', next.Denotes progress' ∧ Advances progress progress' ops ∧
      progress'.current = [] := by
  unfold flushPage at granted
  rcases progress with ⟨leaves, pages, current⟩
  cases current with
  | nil =>
      have count : part.count = 0 := denotes.count
      rw [if_pos count] at granted
      cases granted
      exact ⟨_, denotes, .refl _, rfl⟩
  | cons first rest =>
      have count : part.count ≠ 0 := by
        rw [denotes.count]
        exact Nat.succ_ne_zero _
      simp only [if_neg count, denotes.finished, Prog.bind_eq, Prog.liftM_eq] at granted
      rcases Prog.collect_ofExcept_bind.mp granted with ⟨found, decoded, encoding⟩
      rcases Prog.collect_ofExcept_bind.mp encoding with ⟨object, encoded, asked⟩
      rcases Prog.collect_request_bind.mp asked with ⟨_, _, _, appending, rfl⟩
      rcases Prog.collect_bind_eq_ok.mp appending with ⟨ops, closed, _, appended, done, rfl⟩
      cases done
      rcases encodePage_eq_ok encoded with ⟨_, _, small, _⟩
      have suffix : (first :: rest).Sublist (Progress.records ⟨leaves, pages, first :: rest⟩) :=
        List.sublist_append_right _ _
      have same : found = first := decodeFirstRecord_pageBytes (sorted.sublist suffix)
        (fun record member => fits record (suffix.subset member)) small decoded
      subst same
      let page : Page env := ⟨found, rest, object, encoded⟩
      have appended' : (appendLeafFence env part page.fence).collect = (ops, .ok closed) := appended
      rcases appendLeafFence_granted denotes appended' with ⟨progress', advances, current, denotes'⟩
      refine ⟨⟨progress'.leaves, progress'.pages ++ [page], []⟩,
        ⟨denotes'.parents, denotes'.leaf, by simp, rfl⟩, ⟨?_, ?_⟩, rfl⟩
      · have records := advances.records
        simp only [Progress.records, current] at records ⊢
        rw [← records]
        simp [page, Page.records]
      · intro member present
        simp only [Progress.objects, List.map_append, List.map_cons, List.map_nil, List.mem_append,
          List.mem_singleton] at present
        have earlier : member ∈ progress'.objects ∨ member = object := by
          rw [Progress.objects, List.mem_append]
          rcases present with inLeaf | inPage | same
          · exact .inl (.inl inLeaf)
          · exact .inl (.inr inPage)
          · exact .inr same
        rcases earlier with old | rfl
        · rcases advances.objects member old with older | newer
          · exact .inl older
          · exact .inr (List.mem_cons_of_mem _ (List.mem_append_left _ newer))
        · exact .inr (by simp)

theorem makeRoom_granted {part next : PartitionBuild} {progress : Progress env} {encoded : Bytes}
    {ops : List EncodedObject} (denotes : part.Denotes progress)
    (sorted : StrictlySorted Record.version progress.records)
    (fits : ∀ record ∈ progress.records, record.Fits)
    (granted : (makeRoom env part encoded).collect = (ops, .ok next)) :
    ∃ progress', next.Denotes progress' ∧ Advances progress progress' ops := by
  unfold makeRoom at granted
  split at granted
  · rcases Prog.collect_guard.mp granted with ⟨_, flushing⟩
    rcases Prog.collect_bind_eq_ok.mp flushing with ⟨_, flushed, _, done, guarded, rfl⟩
    rcases Prog.collect_guard.mp guarded with ⟨_, kept⟩
    cases kept
    rcases flushPage_granted denotes sorted fits done with ⟨progress', denotes', advances, _⟩
    rw [List.append_nil]
    exact ⟨progress', denotes', advances⟩
  · cases granted
    exact ⟨progress, denotes, .refl _⟩

/-- The builder has taken these records and handed out these objects. -/
structure BuilderState.Holds (env : Primitives) (state : BuilderState) (records : List Record)
    (objects : List EncodedObject) : Prop where
  sorted : StrictlySorted Record.version records
  fits : ∀ record ∈ records, record.Fits
  previous : state.previous = records.getLast?.map Record.version
  parts : ∀ shard, ∃ progress : Progress env, (state.parts shard).Denotes progress ∧
    progress.records = records.filter (fun record => partition env record.key = shard) ∧
    ∀ object ∈ progress.objects, object ∈ objects

theorem BuilderState.holds_start : BuilderState.start.Holds env [] [] := by
  refine ⟨List.Pairwise.nil, by simp, rfl, ?_⟩
  intro shard
  exact ⟨.start, ⟨rfl, rfl, rfl, rfl⟩, rfl, by simp [Progress.start, Progress.objects]⟩

/-- Records stay sorted when one above the last is added. -/
theorem strictlySorted_append {records : List Record} {record : Record}
    (sorted : StrictlySorted Record.version records)
    (above : Above (records.getLast?.map Record.version) record.version) :
    StrictlySorted Record.version (records ++ [record]) := by
  refine List.pairwise_append.mpr ⟨sorted, List.pairwise_singleton _ _, ?_⟩
  intro earlier member other same
  rw [List.mem_singleton.mp same]
  cases records using List.reverseRecOn with
  | nil => cases member
  | append_singleton front last _ =>
      have bound : last.version < record.version := above _ (by simp)
      rcases List.mem_append.mp member with early | final
      · exact lt_trans ((List.pairwise_append.mp sorted).2.2 earlier early last (by simp)) bound
      · rw [List.mem_singleton.mp final]
        exact bound

theorem BuilderState.Holds.push {state next : BuilderState} {records : List Record}
    {record : Record} {objects ops : List EncodedObject} (holds : state.Holds env records objects)
    (granted : (state.push env record).collect = (ops, .ok next)) :
    next.Holds env (records ++ [record]) (objects ++ ops) := by
  unfold BuilderState.push at granted
  rcases Prog.collect_guard.mp granted with ⟨key, granted⟩
  rcases Prog.collect_guard.mp granted with ⟨ordered, granted⟩
  rcases Prog.collect_guard.mp granted with ⟨size, granted⟩
  simp only [Prog.bind_eq, Prog.liftM_eq] at granted
  rcases Prog.collect_ofExcept_bind.mp granted with ⟨encoded, encoding, granted⟩
  rcases Prog.collect_bind_eq_ok.mp granted with ⟨_, room, _, roomed, done, rfl⟩
  cases done
  rw [List.append_nil]
  have bytes := (encodeRecord_eq_ok.mp encoding).2.2
  rw [holds.previous] at ordered
  have sorted := strictlySorted_append holds.sorted (not_above_iff.mp ordered)
  have fit : record.Fits := ⟨key, Nat.le_of_not_gt size⟩
  refine ⟨sorted, ?_, by simp, ?_⟩
  · intro other member
    rcases List.mem_append.mp member with old | new
    · exact holds.fits other old
    · rw [List.mem_singleton.mp new]
      exact fit
  · intro shard
    rcases holds.parts shard with ⟨progress, denotes, split, present⟩
    by_cases same : shard = partition env record.key
    · subst same
      have partSorted : StrictlySorted Record.version progress.records := by
        rw [split]
        exact holds.sorted.sublist List.filter_sublist
      have partFits : ∀ other ∈ progress.records, other.Fits := by
        intro other member
        rw [split] at member
        exact holds.fits other (List.mem_of_mem_filter member)
      rcases makeRoom_granted denotes partSorted partFits roomed with ⟨progress', denotes', advances⟩
      refine ⟨{ progress' with current := progress'.current ++ [record] }, ?_, ?_, ?_⟩
      · simp only [Function.update_self]
        refine ⟨denotes'.parents, denotes'.leaf, ?_, ?_⟩
        · simp [denotes'.page, bytes]
        · simp [denotes'.count]
      · have records := advances.records
        rw [split] at records
        rw [List.filter_append, ← records]
        simp [Progress.records]
      · intro object member
        rcases advances.objects object member with old | new
        · exact List.mem_append_left _ (present object old)
        · exact List.mem_append_right _ new
    · refine ⟨progress, ?_, ?_, ?_⟩
      · simp only [Function.update_of_ne same]
        exact denotes
      · rw [split, List.filter_append]
        simp [Ne.symm same]
      · exact fun object member => List.mem_append_left _ (present object member)

theorem BuilderState.Holds.pushAll {state next : BuilderState} {records more : List Record}
    {objects ops : List EncodedObject} (holds : state.Holds env records objects)
    (granted : (state.pushAll env more).collect = (ops, .ok next)) :
    next.Holds env (records ++ more) (objects ++ ops) := by
  induction more generalizing state records objects ops with
  | nil =>
      cases granted
      simpa using holds
  | cons record more ih =>
      rcases Prog.collect_bind_eq_ok.mp granted with ⟨first, middle, second, pushed, rest, rfl⟩
      have later := ih (holds.push pushed) rest
      simpa using later

/-! Closing the partitions and writing the root. -/

/-- A partition with everything in closed leaves. -/
structure PartitionBuild.Closed (part : PartitionBuild) (leaves : List (Leaf env))
    (records : List Record) (objects : List EncodedObject) : Prop where
  parents : part.parents = leaves.map Leaf.fence
  records : leaves.flatMap Leaf.records = records
  present : ∀ object ∈ leaves.flatMap Leaf.objects, object ∈ objects

theorem BuilderState.Holds.close {state : BuilderState} {records : List Record}
    {objects ops : List EncodedObject} {shard : Fin 16} {flushed closed : PartitionBuild}
    {first second : List EncodedObject} (holds : state.Holds env records objects)
    (flushing : (flushPage env (state.parts shard)).collect = (first, .ok flushed))
    (closing : (emitLeaf env flushed).collect = (second, .ok closed))
    (within : ∀ object ∈ first ++ second, object ∈ ops) :
    ∃ leaves : List (Leaf env), closed.Closed leaves
      (records.filter (fun record => partition env record.key = shard)) (objects ++ ops) := by
  rcases holds.parts shard with ⟨progress, denotes, split, present⟩
  have sorted : StrictlySorted Record.version progress.records := by
    rw [split]
    exact holds.sorted.sublist List.filter_sublist
  have fits : ∀ record ∈ progress.records, record.Fits := by
    intro record member
    rw [split] at member
    exact holds.fits record (List.mem_of_mem_filter member)
  rcases flushPage_granted denotes sorted fits flushing with ⟨middle, denotes', advances, noRecords⟩
  rcases emitLeaf_granted denotes' closing with ⟨final, denotes'', advances', noPages, current⟩
  have whole := advances.trans advances'
  have kept := whole.records
  rw [split] at kept
  refine ⟨final.leaves, denotes''.parents, ?_, ?_⟩
  · rw [← kept, Progress.records, noPages, current, noRecords]
    simp
  · intro object member
    have listed : object ∈ final.objects := List.mem_append_left _ member
    rcases whole.objects object listed with old | new
    · exact List.mem_append_left _ (present object old)
    · exact List.mem_append_right _ (within object new)

theorem closePartitions_granted {state : BuilderState} {records : List Record}
    {objects ops : List EncodedObject} {shards : List (Fin 16)} {closed : List PartitionBuild}
    (holds : state.Holds env records objects)
    (granted : (closePartitions env state.parts shards).collect = (ops, .ok closed)) :
    List.Forall₂ (fun shard part => ∃ leaves : List (Leaf env), part.Closed leaves
      (records.filter (fun record => partition env record.key = shard)) (objects ++ ops))
      shards closed := by
  induction shards generalizing ops closed with
  | nil =>
      cases granted
      exact .nil
  | cons shard shards ih =>
      rcases Prog.collect_bind_eq_ok.mp granted with ⟨first, flushed, _, flushing, closes, rfl⟩
      rcases Prog.collect_bind_eq_ok.mp closes with ⟨second, part, _, closing, proceeds, rfl⟩
      rcases Prog.collect_bind_eq_ok.mp proceeds with ⟨later, parts, _, others, done, rfl⟩
      cases done
      refine .cons (holds.close flushing closing ?_) ?_
      · intro object member
        simp only [List.mem_append] at member ⊢
        rcases member with early | late
        · exact .inl early
        · exact .inr (.inl late)
      · apply (ih others).imp
        intro other part ⟨leaves, closed⟩
        refine ⟨leaves, closed.parents, closed.records, ?_⟩
        intro object member
        rcases List.mem_append.mp (closed.present object member) with old | new
        · exact List.mem_append_left _ old
        · simp [new]

theorem partitionRef_granted {leaves : List (Leaf env)} {reference : ObjectRef}
    {ops : List EncodedObject}
    (granted : (partitionRef env (leaves.map Leaf.fence)).collect = (ops, .ok reference)) :
    ∃ part : Partition env, part.leaves = leaves ∧ part.reference = reference ∧
      ∀ object ∈ part.objects, object ∈ leaves.flatMap Leaf.objects ∨ object ∈ ops := by
  rcases leaves with _ | ⟨leaf, _ | ⟨other, leaves⟩⟩
  · cases granted
    exact ⟨.empty, rfl, rfl, by simp [Partition.objects]⟩
  · cases granted
    refine ⟨.single leaf, rfl, rfl, ?_⟩
    intro object member
    exact .inl (by simpa [Partition.objects] using member)
  · rcases Prog.collect_ofExcept_bind.mp granted with ⟨bytes, indexed, making⟩
    rcases Prog.collect_ofExcept_bind.mp making with ⟨object, made, asked⟩
    rcases Prog.collect_request_bind.mp asked with ⟨_, _, _, done, rfl⟩
    cases done
    have same := (verifyObject_makeObject made).1
    refine ⟨.several (leaf :: other :: leaves) object (by simp) (by rw [same]; exact indexed)
      (by rw [same]; exact made), rfl, rfl, ?_⟩
    intro member present
    rcases List.mem_cons.mp present with rfl | inner
    · exact .inr (by simp)
    · exact .inl inner

theorem partitionRefs_granted {records : Fin 16 → List Record} {objects ops : List EncodedObject}
    {shards : List (Fin 16)} {closed : List PartitionBuild} {references : List ObjectRef}
    (parts : List.Forall₂ (fun shard part => ∃ leaves : List (Leaf env), part.Closed leaves
      (records shard) objects) shards closed)
    (granted : (partitionRefs env closed).collect = (ops, .ok references)) :
    List.Forall₂ (fun shard reference => ∃ part : Partition env, part.reference = reference ∧
      part.records = records shard ∧ ∀ object ∈ part.objects, object ∈ objects ++ ops)
      shards references := by
  induction parts generalizing ops references with
  | nil =>
      cases granted
      exact .nil
  | cons first rest ih =>
      rcases Prog.collect_bind_eq_ok.mp granted with ⟨early, reference, _, one, more, rfl⟩
      rcases Prog.collect_bind_eq_ok.mp more with ⟨late, others, _, many, done, rfl⟩
      cases done
      rcases first with ⟨leaves, closed⟩
      rw [closed.parents] at one
      rcases partitionRef_granted one with ⟨part, same, referred, present⟩
      refine .cons ⟨part, referred, ?_, ?_⟩ ?_
      · rw [Partition.records, same, closed.records]
      · intro object member
        rcases present object member with old | new
        · exact List.mem_append_left _ (closed.present object old)
        · simp [new]
      · apply (ih many).imp
        intro shard other ⟨part, referred, recorded, present⟩
        refine ⟨part, referred, recorded, ?_⟩
        intro object member
        rcases List.mem_append.mp (present object member) with old | new
        · exact List.mem_append_left _ old
        · simp [new]

/-- A list related to one without repetitions is the image of a function. -/
theorem exists_map_of_forall₂ {α β : Type} [DecidableEq α] [Nonempty β] {related : α → β → Prop}
    {sources : List α} {targets : List β} (nodup : sources.Nodup)
    (all : List.Forall₂ related sources targets) :
    ∃ image : α → β, targets = sources.map image ∧ ∀ source ∈ sources, related source (image source) := by
  induction all with
  | nil => exact ⟨fun _ => Classical.ofNonempty, rfl, by simp⟩
  | @cons source target sources targets first _ ih =>
      rcases List.nodup_cons.mp nodup with ⟨fresh, nodup⟩
      rcases ih nodup with ⟨image, same, rest⟩
      have other : ∀ later ∈ sources, Function.update image source target later = image later := by
        intro later member
        apply Function.update_of_ne
        intro equal
        exact fresh (equal ▸ member)
      refine ⟨Function.update image source target, ?_, ?_⟩
      · rw [List.map_cons, Function.update_self, same]
        congr 1
        exact List.map_congr_left (fun later member => (other later member).symm)
      · intro later member
        rcases List.mem_cons.mp member with rfl | inner
        · rw [Function.update_self]
          exact first
        · rw [other later inner]
          exact rest later inner

theorem BuilderState.Holds.finish {state : BuilderState} {records : List Record}
    {objects ops : List EncodedObject} {root : ObjectRef} (holds : state.Holds env records objects)
    (granted : (state.finish env).collect = (ops, .ok root)) :
    ∃ tree : RunTree env, tree.Stores records (objects ++ ops) ∧ root = tree.object.reference := by
  rcases Prog.collect_bind_eq_ok.mp granted with ⟨first, closed, _, closing, refers, rfl⟩
  rcases Prog.collect_bind_eq_ok.mp refers with ⟨second, references, _, referring, makes, rfl⟩
  rcases Prog.collect_ofExcept_bind.mp makes with ⟨object, made, asked⟩
  rcases Prog.collect_request_bind.mp asked with ⟨_, _, _, done, rfl⟩
  cases done
  have related := partitionRefs_granted (closePartitions_granted holds closing) referring
  have : Nonempty ObjectRef := ⟨.default⟩
  rcases exists_map_of_forall₂ (List.nodup_finRange 16) related with ⟨image, same, all⟩
  choose part referred recorded present using fun shard => all shard (List.mem_finRange shard)
  have images : references = (List.finRange 16).map (fun shard => (part shard).reference) := by
    rw [same]
    exact List.map_congr_left (fun shard _ => (referred shard).symm)
  refine ⟨⟨part, object, by rw [← images]; exact made⟩, ⟨holds.sorted, holds.fits, recorded, ?_, ?_⟩, rfl⟩
  · intro shard member inside
    have listed := present shard member inside
    simp only [List.mem_append] at listed ⊢
    rcases listed with (old | early) | late
    · exact .inl old
    · exact .inr (.inl early)
    · exact .inr (.inr (.inl late))
  · simp [List.getLast?_append]

/-- A granted build leaves a tree that stores exactly its records, root object last. -/
theorem build_granted {records : List Record} {objects : List EncodedObject} {root : ObjectRef}
    (granted : (RunBuilder.build env records).collect = (objects, .ok root)) :
    ∃ tree : RunTree env, tree.Stores records objects ∧ root = tree.object.reference := by
  rcases Prog.collect_bind_eq_ok.mp granted with ⟨first, state, second, pushed, finished, rfl⟩
  have holds := BuilderState.holds_start.pushAll pushed
  exact holds.finish finished

/-! Every object the builder hands out is named by its own digest and length. -/

def EncodedObject.Addressed (env : Primitives) (object : EncodedObject) : Prop :=
  makeObject env object.bytes = .ok object

theorem EncodedObject.Addressed.digest {object : EncodedObject} (addressed : object.Addressed env) :
    object.reference.digest = env.sha256 object.bytes := by
  rcases makeObject_eq_ok.mp addressed with ⟨_, same⟩
  rw [same]

theorem addressed_of_makeObject {bytes : Bytes} {object : EncodedObject}
    (made : makeObject env bytes = .ok object) : object.Addressed env := by
  rw [EncodedObject.Addressed, (verifyObject_makeObject made).1]
  exact made

/-- What holds of every page and index the builder makes. -/
structure EmittingBelow (env : Primitives) (good : EncodedObject → Prop) : Prop where
  page : ∀ page object, encodePage env page = .ok object → good object
  index : ∀ magic ∈ [indexMagic, internalMagic], ∀ entries bytes object,
    encodeIndex entries magic = .ok bytes → makeObject env bytes = .ok object → good object

/-- What holds of every kind of object the builder makes. -/
structure Emitting (env : Primitives) (good : EncodedObject → Prop) : Prop extends EmittingBelow env good where
  root : ∀ references object, makeObject env (encodeRoot references) = .ok object → good object

theorem emitting_addressed : Emitting env (EncodedObject.Addressed env) where
  page := by
    intro page object encoded
    obtain ⟨_, _, _, _, made⟩ := encodePage_eq_ok encoded
    exact addressed_of_makeObject made
  index := fun _ _ _ _ _ _ made => addressed_of_makeObject made
  root := fun _ _ made => addressed_of_makeObject made

section

variable {good : EncodedObject → Prop}

section

variable (emitting : EmittingBelow env good)

include emitting

theorem emitLeaf_asks (part : PartitionBuild) : (emitLeaf env part).Asks good := by
  unfold emitLeaf
  split
  · trivial
  · apply Prog.asks_ofExcept_bind
    intro bytes indexed
    apply Prog.asks_ofExcept_bind
    intro object made
    apply Prog.asks_guard
    apply Prog.asks_guard
    exact (Prog.asks_request (emitting.index indexMagic (by simp) _ _ _ indexed made)).bind
      (fun _ => trivial)

theorem appendLeafFence_asks (part : PartitionBuild) (fence : Fence) :
    (appendLeafFence env part fence).Asks good := by
  unfold appendLeafFence
  split
  · trivial
  · apply Prog.asks_guard
    exact (emitLeaf_asks emitting part).bind (fun closed => Prog.asks_guard trivial)

theorem flushPage_asks (part : PartitionBuild) : (flushPage env part).Asks good := by
  unfold flushPage
  split
  · trivial
  · apply Prog.asks_ofExcept_bind
    intro first _
    apply Prog.asks_ofExcept_bind
    intro object encoded
    refine (Prog.asks_request (emitting.page _ _ encoded)).bind (fun _ => ?_)
    exact (appendLeafFence_asks emitting part _).bind (fun _ => trivial)

theorem makeRoom_asks (part : PartitionBuild) (encoded : Bytes) :
    (makeRoom env part encoded).Asks good := by
  unfold makeRoom
  split
  · apply Prog.asks_guard
    exact (flushPage_asks emitting part).bind (fun _ => Prog.asks_guard trivial)
  · trivial

theorem push_asks (state : BuilderState) (record : Record) : (state.push env record).Asks good := by
  unfold BuilderState.push
  apply Prog.asks_guard
  apply Prog.asks_guard
  apply Prog.asks_guard
  apply Prog.asks_ofExcept_bind
  intro encoded _
  exact (makeRoom_asks emitting _ encoded).bind (fun _ => trivial)

theorem pushAll_asks (state : BuilderState) (records : List Record) :
    (state.pushAll env records).Asks good := by
  induction records generalizing state with
  | nil => trivial
  | cons record records ih => exact (push_asks emitting state record).bind ih

theorem closePartitions_asks (parts : Fin 16 → PartitionBuild) (shards : List (Fin 16)) :
    (closePartitions env parts shards).Asks good := by
  induction shards with
  | nil => trivial
  | cons shard shards ih =>
      refine (flushPage_asks emitting _).bind (fun flushed => ?_)
      refine (emitLeaf_asks emitting flushed).bind (fun closed => ?_)
      exact ih.bind (fun _ => trivial)

theorem partitionRefs_asks (parts : List PartitionBuild) : (partitionRefs env parts).Asks good := by
  induction parts with
  | nil => trivial
  | cons part parts ih =>
      refine Prog.Asks.bind ?_ (fun reference => ih.bind (fun _ => trivial))
      unfold partitionRef
      split
      · trivial
      · trivial
      · apply Prog.asks_ofExcept_bind
        intro bytes indexed
        apply Prog.asks_ofExcept_bind
        intro object made
        exact (Prog.asks_request (emitting.index internalMagic (by simp) _ _ _ indexed made)).bind
          (fun _ => trivial)

end

variable (emitting : Emitting env good)

include emitting

theorem finish_asks (state : BuilderState) : (state.finish env).Asks good := by
  refine (closePartitions_asks emitting.toEmittingBelow _ _).bind (fun closed => ?_)
  refine (partitionRefs_asks emitting.toEmittingBelow closed).bind (fun references => ?_)
  apply Prog.asks_ofExcept_bind
  intro root made
  exact (Prog.asks_request (emitting.root _ _ made)).bind (fun _ => trivial)

theorem build_asks (records : List Record) : (RunBuilder.build env records).Asks good :=
  (pushAll_asks emitting.toEmittingBelow _ records).bind (finish_asks emitting)

end

theorem emitted_addressed {records : List Record} {objects : List EncodedObject} {built : Result ObjectRef}
    (granted : (RunBuilder.build env records).collect = (objects, built)) :
    ∀ object ∈ objects, object.Addressed env := by
  have asked := (@build_asks env _ emitting_addressed records).collect
  rw [granted] at asked
  exact asked

end

end Fossil

import Fossil.RunReader
import Fossil.RunTree

/-! Lookups and walks of a written run.

The objects of a tree are served by an oracle that may refuse an object, but only
with an error in a given class. Under it a lookup finds the newest value of its
key, and a walk lists every object of the tree. -/

namespace Fossil

/-- Replies to a fetch: the bytes of a served object, or a tolerated error. -/
def Serves (served : EncodedObject → Prop) (bad : Error → Prop) (reference : ObjectRef)
    (reply : Result Bytes) : Prop :=
  ∀ object, served object → object.reference = reference →
    reply = .ok object.bytes ∨ ∃ error, reply = .error error ∧ bad error

/-- What reading relies on. References to an all-zero digest are refused, so either
there are none or every error is tolerated. -/
structure Serving (env : Primitives) (served : EncodedObject → Prop) (bad : Error → Prop) : Prop where
  lossless : env.Lossless
  nonzero : (∀ object, served object → object.reference.digest ≠ Fixed.zero) ∨ ∀ error, bad error
  wraps : ∀ message error, bad error → bad (message :: error)

/-- The newest value of a key at or before a block. -/
def Newest (records : List Record) (key : Bytes) (block : UInt64) : Option Bytes → Prop
  | none => ∀ record ∈ records, record.key = key → block < record.block
  | some value => ∃ record ∈ records, record.key = key ∧ record.block ≤ block ∧
      record.value = value ∧
      ∀ other ∈ records, other.key = key → other.block ≤ block → other.block ≤ record.block

/-- What a search for the version finds. -/
def floorValue (key : Bytes) (block : UInt64) (records : List Record) : Option Bytes :=
  (predecessor Record.version (version key block) records).bind (fun record =>
    if record.key = key then some record.value else none)

theorem newest_floorValue {records : List Record} {key : Bytes} {block : UInt64}
    (sorted : StrictlySorted Record.version records) :
    Newest records key block (floorValue key block records) := by
  unfold floorValue
  cases found : predecessor Record.version (version key block) records with
  | none =>
      have above := (predecessor_eq_none sorted).mp found
      intro record member same
      by_contra low
      apply absurd (above record member)
      apply not_lt_of_ge
      exact version_le_iff.mpr (.inr ⟨same, le_of_not_gt low⟩)
  | some record =>
      rcases (predecessor_eq_some sorted record).mp found with ⟨member, bound, greatest⟩
      have order : ∀ other ∈ records, other.key = key → other.block ≤ block →
          other.key < record.key ∨ other.key = record.key ∧ other.block ≤ record.block := by
        intro other present same low
        exact version_le_iff.mp (greatest other present (version_le_iff.mpr (.inr ⟨same, low⟩)))
      rw [Option.bind_some]
      rcases version_le_iff.mp bound with smaller | ⟨same, low⟩
      · rw [if_neg (ne_of_lt smaller)]
        intro other present same
        by_contra low
        rcases order other present same (le_of_not_gt low) with less | ⟨equal, _⟩
        · exact lt_asymm smaller (same ▸ less)
        · exact ne_of_lt smaller (equal.symm.trans same)
      · rw [if_pos same]
        refine ⟨record, member, same, low, rfl, ?_⟩
        intro other present otherSame otherLow
        rcases order other present otherSame otherLow with less | ⟨_, below⟩
        · exact absurd (otherSame.trans same.symm) (ne_of_lt less)
        · exact below

/-- Only records of the key at or before the block matter. -/
theorem newest_congr {left right : List Record} {key : Bytes} {block : UInt64} {value : Option Bytes}
    (members : ∀ record, record.key = key → record.block ≤ block → (record ∈ left ↔ record ∈ right)) :
    Newest left key block value ↔ Newest right key block value := by
  have forward : ∀ {left right : List Record}, (∀ record, record.key = key → record.block ≤ block →
      (record ∈ left ↔ record ∈ right)) → Newest left key block value → Newest right key block value := by
    intro left right members newest
    cases value with
    | none =>
        intro record member same
        by_contra low
        have old := (members record same (le_of_not_gt low)).mpr member
        exact low (newest record old same)
    | some value =>
        rcases newest with ⟨record, member, same, low, valued, greatest⟩
        refine ⟨record, (members record same low).mp member, same, low, valued, ?_⟩
        intro other present otherSame otherLow
        exact greatest other ((members other otherSame otherLow).mpr present) otherSame otherLow
  exact ⟨forward members, forward (fun record same low => (members record same low).symm)⟩

section

variable {env : Primitives} {served : EncodedObject → Prop} {bad : Error → Prop} {shard : Fin 16}

@[simp] theorem Page.fence_data (page : Page env) : page.fence.data = page.object.reference := rfl
@[simp] theorem Leaf.fence_data (leaf : Leaf env) : leaf.fence.data = leaf.object.reference := rfl

/-! Decoding the nodes of a tree. -/

theorem chunked_pages {pages : List (Page env)}
    (sorted : StrictlySorted Record.version (pages.flatMap Page.records)) :
    Chunked Record.version (fun page => page.fence.version) Page.records pages :=
  ⟨sorted, fun page _ => ⟨page.first, page.rest, rfl, rfl⟩⟩

theorem chunked_leaves {leaves : List (Leaf env)}
    (sorted : StrictlySorted Record.version (leaves.flatMap Leaf.records)) :
    Chunked Record.version (fun leaf => leaf.fence.version) Leaf.records leaves :=
  ⟨sorted, fun leaf _ => ⟨leaf.first.first, leaf.first.rest ++ leaf.rest.flatMap Page.records,
    rfl, rfl⟩⟩

theorem Page.decode (lossless : env.Lossless) (page : Page env)
    (routed : Routed env shard page.records) :
    decodeDataPage env page.object.reference page.object.bytes shard = .ok page.records :=
  decodeDataPage_encodePage lossless page.encoded (List.cons_ne_nil _ _) routed.sorted routed.fits
    routed.routed

theorem Page.fence_fits {page : Page env} (routed : Routed env shard page.records) :
    page.fence.Fits env shard (indexLimit indexMagic) := by
  have first : page.first ∈ page.records := List.mem_cons_self
  exact ⟨(routed.fits _ first).key, routed.routed _ first, encodePage_within page.encoded⟩

theorem Leaf.within (leaf : Leaf env) : leaf.object.reference.Within maxIndexBytes :=
  encodeIndex_within rfl leaf.indexed leaf.made

theorem Leaf.fence_fits {leaf : Leaf env} (routed : Routed env shard leaf.records) :
    leaf.fence.Fits env shard (indexLimit internalMagic) := by
  have first : leaf.first.first ∈ leaf.records := List.mem_cons_self
  exact ⟨(routed.fits _ first).key, routed.routed _ first, leaf.within⟩

/-- Some served object has the all-zero digest. -/
def ZeroServed (served : EncodedObject → Prop) : Prop :=
  ∃ object, served object ∧ object.reference.digest = Fixed.zero

theorem Leaf.decode (leaf : Leaf env) (routed : Routed env shard leaf.records)
    (present : ∀ object ∈ leaf.objects, served object) :
    Opens (ZeroServed served) (leaf.pages.map Page.fence)
      (decodeIndex env leaf.object.reference leaf.object.bytes shard indexMagic) := by
  have opens := decodeIndex_encodeIndex rfl leaf.indexed leaf.made (List.cons_ne_nil _ _)
    (List.pairwise_map.mpr (chunked_pages routed.sorted).first_sorted)
    (by
      intro fence member
      rcases List.mem_map.mp member with ⟨page, inside, rfl⟩
      exact Page.fence_fits (routed.sublist (sublist_flatMap inside)))
  apply opens.mono
  intro ⟨fence, member, zero⟩
  rcases List.mem_map.mp member with ⟨page, inside, rfl⟩
  exact ⟨page.object, present _ (List.mem_cons_of_mem _ (List.mem_map_of_mem inside)), zero⟩

theorem decode_leaves {leaves : List (Leaf env)} {object : EncodedObject}
    (indexed : encodeIndex (leaves.map Leaf.fence) internalMagic = .ok object.bytes)
    (made : makeObject env object.bytes = .ok object) (nonempty : leaves ≠ [])
    (routed : Routed env shard (leaves.flatMap Leaf.records))
    (present : ∀ leaf ∈ leaves, ∀ object ∈ leaf.objects, served object) :
    Opens (ZeroServed served) (leaves.map Leaf.fence)
      (decodeIndex env object.reference object.bytes shard internalMagic) := by
  have opens := decodeIndex_encodeIndex rfl indexed made
    (fun empty => nonempty (List.map_eq_nil_iff.mp empty))
    (List.pairwise_map.mpr (chunked_leaves routed.sorted).first_sorted)
    (by
      intro fence member
      rcases List.mem_map.mp member with ⟨leaf, inside, rfl⟩
      exact Leaf.fence_fits (routed.sublist (sublist_flatMap inside)))
  apply opens.mono
  intro ⟨fence, member, zero⟩
  rcases List.mem_map.mp member with ⟨leaf, inside, rfl⟩
  exact ⟨leaf.object, present leaf inside _ List.mem_cons_self, zero⟩

theorem encodeIndex_front {entries : List Fence} {magic bytes : Bytes}
    (encoded : encodeIndex entries magic = .ok bytes) : magic <+: bytes := by
  rw [(encodeIndex_eq_ok encoded).2, List.append_assoc, List.append_assoc]
  exact List.prefix_append _ _

theorem Leaf.not_internal (leaf : Leaf env) : ¬ internalMagic <+: leaf.object.bytes := by
  intro internal
  have leafMagic := encodeIndex_front leaf.indexed
  have same : internalMagic = indexMagic := by
    rw [List.prefix_iff_eq_take.mp internal, List.prefix_iff_eq_take.mp leafMagic]
    rfl
  exact absurd same (by decide)

theorem validateIndexRef_opens {object : EncodedObject} (stored : served object)
    (within : object.reference.Within maxIndexBytes) :
    Opens (ZeroServed served) () (validateIndexRef object.reference) := by
  unfold validateIndexRef
  by_cases zero : object.reference.digest = Fixed.zero
  · rw [if_pos (.inr (.inr zero))]
    exact .inr ⟨⟨object, stored, zero⟩, _, rfl⟩
  · refine .inl (if_neg ?_)
    intro wrong
    rcases wrong with empty | large | isZero
    · exact within.length_ne_zero empty
    · exact absurd within.bounded (Nat.not_le_of_gt large)
    · exact zero isZero

theorem invalidDataRef_eq {reference : ObjectRef} (within : reference.Within maxPageBytes) :
    invalidDataRef reference = decide (reference.digest = Fixed.zero) := by
  apply decide_eq_decide.mpr
  constructor
  · intro wrong
    rcases wrong with empty | large | zero
    · exact absurd empty within.length_ne_zero
    · exact absurd within.bounded (Nat.not_le_of_gt large)
    · exact zero
  · intro zero
    exact .inr (.inr zero)

/-- The outcome is a value with the property, or a tolerated error. -/
def Yields {α : Type} (bad : Error → Prop) (property : α → Prop) (outcome : Except Error α) : Prop :=
  (∃ value, outcome = .ok value ∧ property value) ∨ ∃ error, outcome = .error error ∧ bad error

theorem yields_ok {α : Type} {property : α → Prop} {value : α} (holds : property value) :
    Yields bad property (.ok value) := .inl ⟨value, rfl, holds⟩

theorem yields_error {α : Type} {property : α → Prop} {error : Error} (isBad : bad error) :
    Yields bad property (.error error) := .inr ⟨error, rfl, isBad⟩

/-- Sequencing of steps that yield values or tolerated errors. -/
theorem yields_bind {α β : Type} {middle : α → Prop} {final : β → Prop} {prog : Codec α}
    {next : α → Codec β} (first : prog.Meets (Serves served bad) (Yields bad middle))
    (rest : ∀ value, middle value → (next value).Meets (Serves served bad) (Yields bad final)) :
    (prog.bind next).Meets (Serves served bad) (Yields bad final) := by
  apply Prog.Meets.bind
  apply first.weaken
  intro outcome yielded
  rcases yielded with ⟨value, rfl, holds⟩ | ⟨error, rfl, isBad⟩
  · exact rest value holds
  · exact yields_error isBad

/-- Continue with an opened value. -/
theorem opens_bind {α β : Type} {property : β → Prop} {result : Result α} {value : α}
    {next : α → Codec β} (serving : Serving env served bad)
    (opens : Opens (ZeroServed served) value result)
    (rest : (next value).Meets (Serves served bad) (Yields bad property)) :
    ((Prog.ofExcept result).bind next).Meets (Serves served bad) (Yields bad property) := by
  rcases opens with rfl | ⟨⟨object, stored, zero⟩, error, rfl⟩
  · exact rest
  · rcases serving.nonzero with nonzero | all
    · exact absurd zero (nonzero object stored)
    · exact yields_error (all error)

/-- Continue past the check of a page reference. -/
theorem validData_meets {α : Type} {property : α → Prop} {page : Page env} {error : Error}
    {next : Codec α} (serving : Serving env served bad) (stored : served page.object)
    (rest : next.Meets (Serves served bad) (Yields bad property)) :
    (if invalidDataRef page.object.reference = true then .fail error else next).Meets
      (Serves served bad) (Yields bad property) := by
  rw [invalidDataRef_eq (encodePage_within page.encoded)]
  by_cases zero : page.object.reference.digest = Fixed.zero
  · rcases serving.nonzero with nonzero | all
    · exact absurd zero (nonzero _ stored)
    · rw [if_pos (decide_eq_true zero)]
      exact yields_error (all error)
  · rw [if_neg (by simpa using zero)]
    exact rest

/-- Continue with the bytes of a served object. -/
theorem fetchAs_meets {α : Type} {message : String} {object : EncodedObject} {property : α → Prop}
    {next : Bytes → Codec α} (serving : Serving env served bad) (present : served object)
    (rest : (next object.bytes).Meets (Serves served bad) (Yields bad property)) :
    ((fetchAs message object.reference).bind next).Meets (Serves served bad) (Yields bad property) := by
  apply Prog.Meets.bind
  apply Prog.meets_request
  intro reply answered
  rcases answered object present rfl with rfl | ⟨error, rfl, isBad⟩
  · exact rest
  · exact yields_error (serving.wraps _ _ isBad)

/-- Entering a partition by its reference. Lookups, walks and scans all begin so. -/
theorem enter_meets {α : Type} {property : α → Prop} {nothing : Codec α}
    {below : List Fence → Codec α} {leafward : Bytes → Codec α} (serving : Serving env served bad)
    (part : Partition env) (routed : Routed env shard part.records)
    (present : ∀ object ∈ part.objects, served object)
    (empty : part = .empty → nothing.Meets (Serves served bad) (Yields bad property))
    (single : ∀ leaf, part = .single leaf → Routed env shard leaf.records →
      (leafward leaf.object.bytes).Meets (Serves served bad) (Yields bad property))
    (several : ∀ leaves object many index made, part = .several leaves object many index made →
      (∀ leaf ∈ leaves, ∀ object ∈ leaf.objects, served object) →
      (below (leaves.map Leaf.fence)).Meets (Serves served bad) (Yields bad property)) :
    (if part.reference = .default then nothing
      else (Prog.ofExcept (validateIndexRef part.reference)).bind (fun _ =>
        (fetchAs "fetch run fence root" part.reference).bind (fun bytes =>
          if internalMagic <+: bytes then
            (Prog.ofExcept (decodeIndex env part.reference bytes shard internalMagic)).bind below
          else leafward bytes))).Meets (Serves served bad) (Yields bad property) := by
  cases part with
  | empty => exact empty rfl
  | single leaf =>
      have stored : served leaf.object := present _ List.mem_cons_self
      rw [Partition.reference, if_neg leaf.within.ne_default]
      apply opens_bind serving (validateIndexRef_opens stored leaf.within)
      apply fetchAs_meets serving stored
      rw [if_neg leaf.not_internal]
      exact single leaf rfl (routed.sublist (sublist_flatMap (List.mem_singleton_self leaf)))
  | several leaves object many index made =>
      have stored : served object := present _ List.mem_cons_self
      have within := encodeIndex_within rfl index made
      have inLeaves : ∀ leaf ∈ leaves, ∀ inner ∈ leaf.objects, served inner := by
        intro leaf member inner inside
        exact present _ (List.mem_cons_of_mem _ (List.mem_flatMap.mpr ⟨leaf, member, inside⟩))
      have decoded := decode_leaves index made (List.ne_nil_of_length_pos (by omega)) routed inLeaves
      rw [Partition.reference, if_neg within.ne_default]
      apply opens_bind serving (validateIndexRef_opens stored within)
      apply fetchAs_meets serving stored
      rw [if_pos (encodeIndex_front index)]
      apply opens_bind serving decoded
      exact several leaves object many index made rfl inLeaves

/-! Lookups. -/

theorem lookupLeaf_meets (serving : Serving env served bad) (leaf : Leaf env)
    (routed : Routed env shard leaf.records) (present : ∀ object ∈ leaf.objects, served object)
    {key : Bytes} {block : UInt64} {expectedStart : Option Version}
    (starts : ∀ start ∈ expectedStart, start = leaf.fence.version) :
    (lookupLeaf env shard key block leaf.object.reference leaf.object.bytes expectedStart).Meets
      (Serves served bad) (Yields bad (· = floorValue key block leaf.records)) := by
  have entered : ¬ ∃ start ∈ expectedStart,
      (leaf.pages.map Page.fence).head?.map Fence.version ≠ some start := by
    intro ⟨start, expected, differs⟩
    exact differs (by rw [starts start expected]; rfl)
  have chunks := chunked_pages routed.sorted
  have split : predecessor Record.version (version key block) leaf.records = _ :=
    chunks.predecessor
  unfold lookupLeaf
  apply opens_bind serving (leaf.decode routed present)
  simp only [if_neg entered, floorEntry_eq, predecessor_map, floorValue, split]
  cases found : predecessor (fun page : Page env => page.fence.version) (version key block)
      leaf.pages with
  | none => exact yields_ok rfl
  | some page =>
      have inside := ((predecessor_eq_some chunks.first_sorted page).mp found).1
      have stored : served page.object :=
        present _ (List.mem_cons_of_mem _ (List.mem_map_of_mem inside))
      have pageRouted := routed.sublist (sublist_flatMap inside)
      have entry : ¬ page.records.head?.map Record.version ≠ some page.fence.version :=
        fun differs => differs rfl
      simp only [Option.map_some, Page.fence_data, Option.bind_some]
      apply validData_meets serving stored
      apply fetchAs_meets serving stored
      rw [page.decode serving.lossless pageRouted, Prog.liftM_eq, Prog.ofExcept_ok, Prog.bind_eq,
        Prog.ret_bind, if_neg entry]
      cases predecessor Record.version (version key block) page.records with
      | none => exact yields_ok rfl
      | some candidate => exact yields_ok rfl

/-- A lookup in the partition of its key finds what a search of its records finds. -/
theorem lookup_meets (serving : Serving env served bad) (reader : RunReader) (part : Partition env)
    {key : Bytes} (nonempty : key ≠ []) (indexed : reader.index (partition env key) = part.reference)
    (routed : Routed env (partition env key) part.records)
    (present : ∀ object ∈ part.objects, served object) (block : UInt64) :
    (reader.lookup env key block).Meets (Serves served bad)
      (Yields bad (· = floorValue key block part.records)) := by
  unfold RunReader.lookup
  simp only [if_neg nonempty, indexed, Prog.bind_eq, Prog.liftM_eq]
  apply enter_meets serving part routed present
  · intro empty
    exact yields_ok (by rw [empty]; rfl)
  · intro leaf same leafRouted
    subst same
    have records : Partition.records (.single leaf) = leaf.records := by
      simp [Partition.records, Partition.leaves]
    rw [records]
    exact lookupLeaf_meets serving leaf leafRouted present (by simp)
  · intro leaves object many index made same inLeaves
    subst same
    have chunks := chunked_leaves routed.sorted
    have split : predecessor Record.version (version key block) (leaves.flatMap Leaf.records) = _ :=
      chunks.predecessor
    simp only [floorEntry_eq, predecessor_map, floorValue, Partition.records, Partition.leaves, split]
    cases found : predecessor (fun leaf : Leaf env => leaf.fence.version) (version key block)
        leaves with
    | none => exact yields_ok rfl
    | some leaf =>
        have inside := ((predecessor_eq_some chunks.first_sorted leaf).mp found).1
        have stored : served leaf.object := inLeaves leaf inside _ List.mem_cons_self
        simp only [Option.map_some, Option.bind_some, Leaf.fence_data]
        apply opens_bind serving (validateIndexRef_opens stored leaf.within)
        apply fetchAs_meets serving stored
        exact lookupLeaf_meets serving leaf (routed.sublist (sublist_flatMap inside))
          (inLeaves leaf inside) (fun start same => (Option.some.inj same).symm)

/-! Walks. -/

def Leaf.pageRefs (leaf : Leaf env) : List ObjectRef :=
  leaf.pages.map (fun page => page.object.reference)

def Partition.pageRefs (part : Partition env) : List ObjectRef := part.leaves.flatMap Leaf.pageRefs

/-- The index objects of a partition, root first. -/
def Partition.indexRefs : Partition env → List ObjectRef
  | .empty => []
  | .single leaf => [leaf.object.reference]
  | .several leaves object .. =>
      object.reference :: leaves.map (fun leaf => leaf.object.reference)

theorem walkLeaves_meets (serving : Serving env served bad) {leaves : List (Leaf env)}
    (routed : Routed env shard (leaves.flatMap Leaf.records))
    (present : ∀ leaf ∈ leaves, ∀ object ∈ leaf.objects, served object) :
    (walkLeaves env shard (leaves.map Leaf.fence)).Meets (Serves served bad)
      (Yields bad (· = (leaves.map (fun leaf => leaf.object.reference),
        leaves.flatMap (fun leaf => leaf.pages.map Page.fence)))) := by
  induction leaves with
  | nil => exact yields_ok rfl
  | cons leaf leaves ih =>
      have here := present leaf List.mem_cons_self
      have stored : served leaf.object := here _ List.mem_cons_self
      have leafRouted := routed.sublist (sublist_flatMap (List.mem_cons_self (a := leaf)))
      have rest := ih (routed.sublist (List.sublist_append_right _ _))
        (fun other member => present other (List.mem_cons_of_mem _ member))
      simp only [List.map_cons, walkLeaves, Leaf.fence_data]
      apply opens_bind serving (validateIndexRef_opens stored leaf.within)
      apply fetchAs_meets serving stored
      apply opens_bind serving (leaf.decode leafRouted here)
      apply yields_bind rest
      intro found same
      subst same
      exact yields_ok rfl

theorem walkPartition_meets (serving : Serving env served bad) (part : Partition env)
    (routed : Routed env shard part.records) (present : ∀ object ∈ part.objects, served object) :
    (walkPartition env shard part.reference).Meets (Serves served bad)
      (Yields bad (· = (part.indexRefs, part.pageRefs))) := by
  unfold walkPartition
  simp only [Prog.bind_eq, Prog.liftM_eq]
  apply enter_meets serving part routed present
  · intro empty
    exact yields_ok (by rw [empty]; rfl)
  · intro leaf same leafRouted
    subst same
    apply opens_bind serving (leaf.decode leafRouted present)
    apply yields_ok
    simp [Partition.reference, Partition.indexRefs, Partition.pageRefs, Partition.leaves, Leaf.pageRefs]
  · intro leaves object many index made same inLeaves
    subst same
    apply yields_bind (walkLeaves_meets serving routed inLeaves)
    intro found same
    subst same
    apply yields_ok
    simp only [Partition.reference, Partition.indexRefs, Partition.pageRefs, Partition.leaves,
      List.map_flatMap, List.map_map]
    rfl

/-! Whole trees. -/

def RunTree.reader (tree : RunTree env) : RunReader :=
  ⟨(List.finRange 16).map (fun shard => (tree.part shard).reference)⟩

/-- Every object below the root is served. -/
structure RunTree.Readable (tree : RunTree env) (served : EncodedObject → Prop) : Prop where
  routed : ∀ shard, Routed env shard (tree.part shard).records
  present : ∀ shard, ∀ object ∈ (tree.part shard).objects, served object

theorem RunTree.Stores.readable {tree : RunTree env} {records : List Record}
    {objects : List EncodedObject} (stores : tree.Stores records objects)
    (all : ∀ object ∈ objects, served object) : tree.Readable served :=
  ⟨stores.routed, fun shard object member => all object (stores.parts shard object member)⟩

theorem RunTree.reader_index (tree : RunTree env) (shard : Fin 16) :
    tree.reader.index shard = (tree.part shard).reference := by
  simp [RunTree.reader, RunReader.index, List.getD_eq_getElem?_getD]

theorem Partition.slot (part : Partition env) : part.reference.Slot := by
  cases part with
  | empty => exact .inl rfl
  | single leaf => exact .inr leaf.within
  | several leaves object many index made => exact .inr (encodeIndex_within rfl index made)

theorem Partition.entered (part : Partition env) (occupied : part.reference ≠ .default) :
    ∃ object ∈ part.objects, object.reference = part.reference := by
  cases part with
  | empty => exact absurd rfl occupied
  | single leaf => exact ⟨leaf.object, List.mem_cons_self, rfl⟩
  | several leaves object many index made => exact ⟨object, List.mem_cons_self, rfl⟩

theorem RunTree.Readable.decode {tree : RunTree env} (readable : tree.Readable served) :
    Opens (ZeroServed served) tree.reader
      (RunReader.decode env tree.object.reference tree.object.bytes) := by
  have opens := decode_encodeRoot (by simp [partitions])
    (by
      intro reference member
      rcases List.mem_map.mp member with ⟨shard, _, rfl⟩
      exact (tree.part shard).slot) tree.made
  apply opens.mono
  intro ⟨reference, member, occupied, zero⟩
  rcases List.mem_map.mp member with ⟨shard, _, rfl⟩
  rcases (tree.part shard).entered occupied with ⟨object, inside, same⟩
  exact ⟨object, readable.present shard object inside, by rw [same]; exact zero⟩

/-- A lookup finds the newest value among all records of the run. -/
theorem RunTree.lookup_meets {tree : RunTree env} {records : List Record}
    {objects : List EncodedObject} (serving : Serving env served bad)
    (stores : tree.Stores records objects) (readable : tree.Readable served)
    {key : Bytes} {block : UInt64} (nonempty : key ≠ []) :
    (tree.reader.lookup env key block).Meets (Serves served bad)
      (Yields bad (Newest records key block)) := by
  have found := Fossil.lookup_meets serving tree.reader (tree.part (partition env key)) nonempty
    (tree.reader_index _) (readable.routed _) (readable.present _) block
  apply found.weaken
  intro outcome yielded
  rcases yielded with ⟨value, done, rfl⟩ | failed
  · refine .inl ⟨_, done, ?_⟩
    have newest : Newest _ key block _ := newest_floorValue (readable.routed (partition env key)).sorted
    nth_rewrite 1 [stores.split] at newest
    refine (newest_congr ?_).mp newest
    intro record same _
    simp [List.mem_filter, same]
  · exact .inr failed

theorem walkPartitions_meets {tree : RunTree env} (serving : Serving env served bad)
    (readable : tree.Readable served) (shards : List (Fin 16)) :
    (walkPartitions env tree.reader shards).Meets (Serves served bad)
      (Yields bad (· = (shards.flatMap (fun shard => (tree.part shard).indexRefs),
        shards.map (fun shard => (tree.part shard).pageRefs)))) := by
  induction shards with
  | nil => exact yields_ok rfl
  | cons shard shards ih =>
      simp only [walkPartitions, tree.reader_index, Prog.bind_eq]
      apply yields_bind
        (walkPartition_meets serving _ (readable.routed shard) (readable.present shard))
      intro first same
      subst same
      apply yields_bind ih
      intro rest same
      subst same
      exact yields_ok rfl

/-- References of every object below the root, indexes first. -/
def RunTree.refs (tree : RunTree env) : List ObjectRef :=
  (List.finRange 16).flatMap (fun shard => (tree.part shard).indexRefs) ++
    ((List.finRange 16).map (fun shard => (tree.part shard).pageRefs)).flatten

theorem objectRefs_meets {tree : RunTree env} (serving : Serving env served bad)
    (readable : tree.Readable served) :
    (tree.reader.objectRefs env).Meets (Serves served bad) (Yields bad (· = tree.refs)) := by
  apply yields_bind (walkPartitions_meets serving readable _)
  intro found same
  subst same
  exact yields_ok rfl

theorem dataPages_meets {tree : RunTree env} (serving : Serving env served bad)
    (readable : tree.Readable served) :
    (tree.reader.dataPages env).Meets (Serves served bad)
      (Yields bad (· = (List.finRange 16).map (fun shard => (tree.part shard).pageRefs))) := by
  apply yields_bind (walkPartitions_meets serving readable _)
  intro found same
  subst same
  exact yields_ok rfl

theorem Partition.mem_refs (part : Partition env) {object : EncodedObject}
    (member : object ∈ part.objects) :
    object.reference ∈ part.indexRefs ∨ object.reference ∈ part.pageRefs := by
  have inLeaf : ∀ leaf ∈ part.leaves, object ∈ leaf.pages.map Page.object →
      object.reference ∈ part.pageRefs := by
    intro leaf inside listed
    rcases List.mem_map.mp listed with ⟨page, paged, rfl⟩
    exact List.mem_flatMap.mpr ⟨leaf, inside, List.mem_map_of_mem paged⟩
  cases part with
  | empty => cases member
  | single leaf =>
      rcases List.mem_cons.mp member with rfl | listed
      · exact .inl (List.mem_singleton_self _)
      · exact .inr (inLeaf leaf (List.mem_singleton_self leaf) listed)
  | several leaves root many index made =>
      rcases List.mem_cons.mp member with rfl | inner
      · exact .inl List.mem_cons_self
      · rcases List.mem_flatMap.mp inner with ⟨leaf, inside, listed⟩
        rcases List.mem_cons.mp listed with rfl | paged
        · exact .inl (List.mem_cons_of_mem _ (List.mem_map_of_mem inside))
        · exact .inr (inLeaf leaf inside paged)

/-- A walk misses no object of the tree. -/
theorem RunTree.mem_refs (tree : RunTree env) {shard : Fin 16} {object : EncodedObject}
    (member : object ∈ (tree.part shard).objects) : object.reference ∈ tree.refs := by
  rcases (tree.part shard).mem_refs member with index | page
  · exact List.mem_append_left _ (List.mem_flatMap.mpr ⟨shard, List.mem_finRange shard, index⟩)
  · exact List.mem_append_right _ (List.mem_flatten.mpr
      ⟨_, List.mem_map_of_mem (List.mem_finRange shard), page⟩)

/-- A walk lists objects of the tree only. -/
theorem RunTree.object_of_ref (tree : RunTree env) {reference : ObjectRef} (member : reference ∈ tree.refs) :
    ∃ shard, ∃ object ∈ (tree.part shard).objects, object.reference = reference := by
  have inPages : ∀ (part : Partition env), reference ∈ part.pageRefs →
      ∃ leaf ∈ part.leaves, ∃ object ∈ leaf.objects, object.reference = reference := by
    intro part paged
    rcases List.mem_flatMap.mp paged with ⟨leaf, inside, listed⟩
    rcases List.mem_map.mp listed with ⟨page, member, same⟩
    exact ⟨leaf, inside, page.object, List.mem_cons_of_mem _ (List.mem_map_of_mem member), same⟩
  have inPart : ∀ (part : Partition env), reference ∈ part.indexRefs ∨ reference ∈ part.pageRefs →
      ∃ object ∈ part.objects, object.reference = reference := by
    intro part listed
    cases part with
    | empty => simp [Partition.indexRefs, Partition.pageRefs, Partition.leaves] at listed
    | single leaf =>
        rcases listed with index | page
        · exact ⟨leaf.object, List.mem_cons_self, (List.mem_singleton.mp index).symm⟩
        · rcases inPages _ page with ⟨other, inside, object, member, same⟩
          rw [List.mem_singleton.mp inside] at member
          exact ⟨object, member, same⟩
    | several leaves root many index made =>
        rcases listed with index | page
        · rcases List.mem_cons.mp index with same | inner
          · exact ⟨root, List.mem_cons_self, same.symm⟩
          · rcases List.mem_map.mp inner with ⟨leaf, inside, same⟩
            exact ⟨leaf.object, List.mem_cons_of_mem _ (List.mem_flatMap.mpr
              ⟨leaf, inside, List.mem_cons_self⟩), same⟩
        · rcases inPages _ page with ⟨leaf, inside, object, member, same⟩
          exact ⟨object, List.mem_cons_of_mem _ (List.mem_flatMap.mpr ⟨leaf, inside, member⟩), same⟩
  rcases List.mem_append.mp member with index | page
  · rcases List.mem_flatMap.mp index with ⟨shard, _, inside⟩
    exact ⟨shard, inPart _ (.inl inside)⟩
  · rcases List.mem_flatten.mp page with ⟨pages, listed, inside⟩
    rcases List.mem_map.mp listed with ⟨shard, _, rfl⟩
    exact ⟨shard, inPart _ (.inr inside)⟩

theorem not_rootMagic {magic bytes : Bytes} (front : magic <+: bytes) (width : magic.length = 4)
    (differs : magic ≠ rootMagic) : ¬ rootMagic <+: bytes := by
  intro root
  apply differs
  rw [List.prefix_iff_eq_take.mp front, List.prefix_iff_eq_take.mp root, width]
  rfl

/-- The objects below a root are not roots. -/
theorem Partition.not_root (part : Partition env) {object : EncodedObject} (member : object ∈ part.objects) :
    ¬ rootMagic <+: object.bytes := by
  have inLeaf : ∀ (leaf : Leaf env), object ∈ leaf.objects → ¬ rootMagic <+: object.bytes := by
    intro leaf inside
    rcases List.mem_cons.mp inside with rfl | paged
    · exact not_rootMagic (encodeIndex_front leaf.indexed) rfl (by decide)
    · rcases List.mem_map.mp paged with ⟨page, _, rfl⟩
      rcases encodePage_eq_ok page.encoded with ⟨compressed, _, _, _, made⟩
      rw [(verifyObject_makeObject made).1, List.append_assoc, List.append_assoc, List.append_assoc]
      exact not_rootMagic (List.prefix_append _ _) rfl (by decide)
  cases part with
  | empty => cases member
  | single leaf => exact inLeaf leaf member
  | several leaves root many index made =>
      rcases List.mem_cons.mp member with rfl | inner
      · exact not_rootMagic (encodeIndex_front index) rfl (by decide)
      · rcases List.mem_flatMap.mp inner with ⟨leaf, _, inside⟩
        exact inLeaf leaf inside

theorem RunTree.root_front (tree : RunTree env) : rootMagic <+: tree.object.bytes := by
  rw [(verifyObject_makeObject tree.made).1, encodeRoot, List.append_assoc]
  exact List.prefix_append _ _

/-! Reading back what a build emitted. -/

/-- Fetching from a set of objects by digest. -/
def fetchFrom (objects : List EncodedObject) (reference : ObjectRef) : Result Bytes :=
  match objects.find? (fun object => object.reference.digest = reference.digest) with
  | some object => .ok object.bytes
  | none => bail "object not found"

/-- The digest tells these objects apart, and none has the all-zero digest. -/
structure Distinguishes (env : Primitives) (objects : List EncodedObject) : Prop where
  injective : ∀ first ∈ objects, ∀ second ∈ objects,
    env.sha256 first.bytes = env.sha256 second.bytes → first.bytes = second.bytes
  nonzero : ∀ object ∈ objects, env.sha256 object.bytes ≠ Fixed.zero

theorem serving_emitted {objects : List EncodedObject} (lossless : env.Lossless)
    (addressed : ∀ object ∈ objects, object.Addressed env) (distinct : Distinguishes env objects) :
    Serving env (· ∈ objects) (fun _ => False) := by
  refine ⟨lossless, .inl ?_, fun _ _ isBad => isBad⟩
  intro object member
  rw [(addressed object member).digest]
  exact distinct.nonzero object member

theorem serves_fetchFrom {objects : List EncodedObject}
    (addressed : ∀ object ∈ objects, object.Addressed env) (distinct : Distinguishes env objects)
    (reference : ObjectRef) :
    Serves (· ∈ objects) bad reference (fetchFrom objects reference) := by
  intro object member same
  left
  unfold fetchFrom
  cases found : objects.find? (fun object => object.reference.digest = reference.digest) with
  | none =>
      have missing := List.find?_eq_none.mp found object member
      rw [same] at missing
      simp at missing
  | some other =>
      have listed := List.mem_of_find?_eq_some found
      have digests : other.reference.digest = reference.digest := by
        simpa using List.find?_some found
      rw [← same, (addressed other listed).digest, (addressed object member).digest] at digests
      exact congrArg Except.ok (distinct.injective other listed object member digests)

/-- The root object of a build is among the emitted ones and decodes. -/
theorem RunTree.Stores.fetch_root {tree : RunTree env} {records : List Record}
    {objects : List EncodedObject} (stores : tree.Stores records objects)
    (addressed : ∀ object ∈ objects, object.Addressed env) (distinct : Distinguishes env objects) :
    fetchFrom objects tree.object.reference = .ok tree.object.bytes ∧
      RunReader.decode env tree.object.reference tree.object.bytes = .ok tree.reader := by
  have last := List.mem_of_getLast? stores.root
  constructor
  · have served : Serves (· ∈ objects) (fun _ => False) tree.object.reference _ :=
      serves_fetchFrom addressed distinct tree.object.reference
    rcases served tree.object last rfl with done | ⟨_, _, wrong⟩
    · exact done
    · exact wrong.elim
  · have readable : tree.Readable (· ∈ objects) := stores.readable (fun _ member => member)
    rcases readable.decode with done | ⟨⟨object, member, zero⟩, _⟩
    · exact done
    · rw [(addressed object member).digest] at zero
      exact absurd zero (distinct.nonzero object member)

theorem lookupLeaf_atMost (key : Bytes) (block : UInt64) (leafRef : ObjectRef) (leafBytes : Bytes)
    (expectedStart : Option Version) :
    (lookupLeaf env shard key block leafRef leafBytes expectedStart).AtMost 1 := by
  unfold lookupLeaf
  simp only [Prog.bind_eq, Prog.liftM_eq]
  apply Prog.atMost_ofExcept_bind
  intro fences
  split
  · trivial
  · split
    · trivial
    · split
      · trivial
      · apply Prog.atMost_request_bind
        intro page
        apply Prog.atMost_ofExcept_bind
        intro records
        split
        · trivial
        · split <;> trivial

/-- A lookup fetches an internal root, a leaf and a page at most. -/
theorem lookup_atMost (reader : RunReader) (key : Bytes) (block : UInt64) :
    (reader.lookup env key block).AtMost 3 := by
  unfold RunReader.lookup
  simp only [Prog.bind_eq, Prog.liftM_eq]
  split
  · trivial
  · split
    · trivial
    · apply Prog.atMost_ofExcept_bind
      intro _
      apply Prog.atMost_request_bind
      intro root
      split
      · apply Prog.atMost_ofExcept_bind
        intro parents
        split
        · trivial
        · apply Prog.atMost_ofExcept_bind
          intro _
          apply Prog.atMost_request_bind
          intro leaf
          exact lookupLeaf_atMost key block _ leaf _
      · exact (lookupLeaf_atMost key block _ root none).mono (by omega)

/-- References that may be fetched. -/
def ObjectRef.Short (reference : ObjectRef) : Prop := reference.length.toNat ≤ maxPageBytes

theorem fetchAs_asks (message : String) {reference : ObjectRef} (short : reference.Short) :
    (fetchAs message reference).Asks ObjectRef.Short := Prog.asks_request short

theorem validateIndexRef_short {reference : ObjectRef} (valid : validateIndexRef reference = .ok ()) :
    reference.Short := by
  obtain ⟨within, _⟩ := guard_eq_ok.mp valid
  simp only [not_or, not_lt] at within
  exact within.2.1.trans (by decide)

theorem lookupLeaf_asks (key : Bytes) (block : UInt64) (leafRef : ObjectRef) (leafBytes : Bytes)
    (expectedStart : Option Version) :
    (lookupLeaf env shard key block leafRef leafBytes expectedStart).Asks ObjectRef.Short := by
  unfold lookupLeaf
  simp only [Prog.bind_eq, Prog.liftM_eq]
  apply Prog.asks_ofExcept_bind
  intro fences _
  split
  · trivial
  · split
    · trivial
    · split
      · trivial
      · next fence _ valid =>
          have short : fence.data.Short := by
            simp only [invalidDataRef, decide_eq_true_eq, not_or, not_lt] at valid
            exact valid.2.1
          apply Prog.Asks.bind (fetchAs_asks _ short)
          intro page
          apply Prog.asks_ofExcept_bind
          intro records _
          split
          · trivial
          · split <;> trivial

/-- Every reference is checked before it is fetched. -/
theorem lookup_asks (reader : RunReader) (key : Bytes) (block : UInt64) :
    (reader.lookup env key block).Asks ObjectRef.Short := by
  unfold RunReader.lookup
  simp only [Prog.bind_eq, Prog.liftM_eq]
  split
  · trivial
  · split
    · trivial
    · apply Prog.asks_ofExcept_bind
      intro _ valid
      apply Prog.Asks.bind (fetchAs_asks _ (validateIndexRef_short valid))
      intro root
      split
      · apply Prog.asks_ofExcept_bind
        intro parents _
        split
        · trivial
        · apply Prog.asks_ofExcept_bind
          intro _ valid'
          apply Prog.Asks.bind (fetchAs_asks _ (validateIndexRef_short valid'))
          intro leaf
          exact lookupLeaf_asks key block _ leaf _
      · exact lookupLeaf_asks key block _ root none

/-- What a build emitted answers every lookup: the newest value at or before the
block among the records it was given, in at most three fetches. -/
theorem lookup_emitted {records : List Record} {objects : List EncodedObject} {root : ObjectRef}
    (lossless : env.Lossless) (built : (RunBuilder.build env records).collect = (objects, .ok root))
    (distinct : Distinguishes env objects) :
    ∃ rootBytes reader, fetchFrom objects root = .ok rootBytes ∧
      RunReader.decode env root rootBytes = .ok reader ∧
      ∀ key block, ((reader.lookup env key block).run (fetchFrom objects)).1.length ≤ 3 ∧
        ∃ value, ((reader.lookup env key block).run (fetchFrom objects)).2 = .ok value ∧
          Newest records key block value := by
  rcases build_granted built with ⟨tree, stores, rfl⟩
  have addressed := emitted_addressed built
  have serving := serving_emitted lossless addressed distinct
  have rooted := stores.fetch_root addressed distinct
  refine ⟨tree.object.bytes, tree.reader, rooted.1, rooted.2, ?_⟩
  intro key block
  refine ⟨(lookup_atMost tree.reader key block).run, ?_⟩
  by_cases empty : key = []
  · subst empty
    refine ⟨none, rfl, ?_⟩
    intro record member same
    exact absurd same (stores.fits record member).key
  · have meets : (tree.reader.lookup env key block).Meets _ _ :=
      RunTree.lookup_meets serving stores (stores.readable (fun _ member => member)) empty
    rcases meets.run (serves_fetchFrom addressed distinct) with done | ⟨_, _, wrong⟩
    · exact done
    · exact wrong.elim

end

/-! A run of two records, with the digests and the compressed page they really have. -/

/-- Two versions of one key, the second a tombstone. -/
def sampleRecords : List Record := [⟨[0x61], 1, [0x78]⟩, ⟨[0x61], 3, []⟩]

def samplePage : Bytes :=
  beBytes 44 0x4654445001000000020000000161000000000000000100000001780000000161000000000000000300000000

def sampleCompressed : Bytes :=
  beBytes 43 0x28b52ffd0050150100d046544450010000000200000001610001000000017803000000000200357931803a

def sampleIndexDigest : Nat := 0x1f80c42013d5e58a67d0838a19ed1c6f04a85549bc3e79096c4fbb2c087be42e

/-- The values of SHA-256 at the key and the objects of the sample run. -/
def sampleDigests : List (Bytes × Nat) := [
  ([0x61], 0xca978112ca1bbdcafac231b39a23dc4da786eff8147c4e72b9807785afee48bb),
  (compressedMagic ++ [formatVersion] ++ be32 44 ++ be32 43 ++ sampleCompressed,
    0x637eedce2b4583a15cf5c21775e624a2dac238e140a787f1e3b59f550502159a),
  (indexMagic ++ [formatVersion] ++ be32 1 ++ fenceBytes ⟨[0x61], 1,
    ⟨.ofNat 0x637eedce2b4583a15cf5c21775e624a2dac238e140a787f1e3b59f550502159a, 56⟩⟩,
    sampleIndexDigest),
  (encodeRoot ((List.range 16).map (fun shard =>
    if shard = 12 then ⟨.ofNat sampleIndexDigest, 58⟩ else .default)),
    0xb64e123db430090be97bc1b3ebe0c85c403dc632a593ada58c29361aa957d429)]

def samplePrimitives : Primitives where
  sha256 := digestOf sampleDigests
  zstdCompress page := if page = samplePage then .ok sampleCompressed else bail "not in the sample"
  zstdDecompress bytes _ := if bytes = sampleCompressed then .ok samplePage else bail "not in the sample"

theorem samplePrimitives_lossless : samplePrimitives.Lossless := by
  intro page compressed done _
  simp only [samplePrimitives] at done ⊢
  split at done
  · next same =>
      cases done
      rw [if_pos rfl, same]
  · cases done

def sampleObjects : List EncodedObject := (RunBuilder.build samplePrimitives sampleRecords).collect.1

def sampleRoot : ObjectRef :=
  ⟨.ofNat 0xb64e123db430090be97bc1b3ebe0c85c403dc632a593ada58c29361aa957d429, 581⟩

theorem sample_built :
    (RunBuilder.build samplePrimitives sampleRecords).collect = (sampleObjects, .ok sampleRoot) := by
  have finished : (RunBuilder.build samplePrimitives sampleRecords).collect.2 = .ok sampleRoot := by
    decide +kernel
  exact Prod.ext rfl finished

theorem sample_distinguishes : Distinguishes samplePrimitives sampleObjects := by
  constructor
  · decide +kernel
  · decide +kernel

theorem lookup_sample :
    (RunBuilder.build samplePrimitives sampleRecords).collect = (sampleObjects, .ok sampleRoot) ∧
    ∃ rootBytes reader, fetchFrom sampleObjects sampleRoot = .ok rootBytes ∧
      RunReader.decode samplePrimitives sampleRoot rootBytes = .ok reader ∧
      ∀ key block, ((reader.lookup samplePrimitives key block).run (fetchFrom sampleObjects)).1.length ≤ 3 ∧
        ∃ value, ((reader.lookup samplePrimitives key block).run (fetchFrom sampleObjects)).2 = .ok value ∧
          Newest sampleRecords key block value :=
  ⟨sample_built, lookup_emitted samplePrimitives_lossless sample_built sample_distinguishes⟩

end Fossil

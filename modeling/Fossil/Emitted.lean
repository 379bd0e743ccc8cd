import Fossil.Tasks
import Fossil.Canonical

/-! What the objects a builder has emitted so far can be read as.

Whatever else becomes of the build, its pages hold records it was handed and its leaves
start at such records. -/

namespace Fossil

/-- A page of some of these records, or a leaf whose fences are at some of them. -/
inductive Made (env : Primitives) (sent : List Record) (object : EncodedObject) : Prop where
  | page (records : List Record) (inside : ∀ record ∈ records, record ∈ sent) (nonempty : records ≠ [])
      (sorted : StrictlySorted Record.version records) (fits : ∀ record ∈ records, record.Fits)
      (encoded : encodePage env (pageBytes records) = .ok object)
  | leaf (entries : List Fence) (inside : ∀ fence ∈ entries, ∃ record ∈ sent, record.version = fence.version)
      (encoded : encodeIndex entries indexMagic = .ok object.bytes)

section

variable {env : Primitives} {sent more : List Record} {object : EncodedObject}

theorem Made.mono (made : Made env sent object) (sub : ∀ record ∈ sent, record ∈ more) :
    Made env more object := by
  cases made with
  | page records inside nonempty sorted fits encoded =>
      exact .page records (fun record member => sub record (inside record member)) nonempty sorted fits encoded
  | leaf entries inside encoded =>
      refine .leaf entries ?_ encoded
      intro fence member
      obtain ⟨record, present, same⟩ := inside fence member
      exact ⟨record, sub record present, same⟩

theorem emitLeaf_makes {part : PartitionBuild}
    (inside : ∀ fence ∈ part.leaf, ∃ record ∈ sent, record.version = fence.version) :
    (emitLeaf env part).Asks (Made env sent) := by
  unfold emitLeaf
  split
  · trivial
  · apply Prog.asks_ofExcept_bind
    intro bytes indexed
    apply Prog.asks_ofExcept_bind
    intro object made
    apply Prog.asks_guard
    apply Prog.asks_guard
    refine (Prog.asks_request (.leaf part.leaf inside ?_)).bind (fun _ => trivial)
    rw [(verifyObject_makeObject made).1]
    exact indexed

theorem appendLeafFence_makes {part : PartitionBuild} (fence : Fence)
    (inside : ∀ fence ∈ part.leaf, ∃ record ∈ sent, record.version = fence.version) :
    (appendLeafFence env part fence).Asks (Made env sent) := by
  unfold appendLeafFence
  split
  · trivial
  · apply Prog.asks_guard
    exact (emitLeaf_makes inside).bind (fun closed => Prog.asks_guard trivial)

theorem flushPage_makes {part : PartitionBuild} {progress : Progress env} (denotes : part.Denotes progress)
    (sorted : StrictlySorted Record.version progress.records)
    (fits : ∀ record ∈ progress.records, record.Fits)
    (inside : ∀ record ∈ progress.records, record ∈ sent) : (flushPage env part).Asks (Made env sent) := by
  have current : progress.current.Sublist progress.records := List.sublist_append_right _ _
  have leaf : ∀ fence ∈ part.leaf, ∃ record ∈ sent, record.version = fence.version := by
    intro fence member
    rw [denotes.leaf] at member
    obtain ⟨page, listed, rfl⟩ := List.mem_map.mp member
    refine ⟨page.first, inside _ ?_, rfl⟩
    simp only [Progress.records, List.mem_append, List.mem_flatMap]
    exact .inl (.inr ⟨page, listed, by simp [Page.records]⟩)
  unfold flushPage
  split
  · trivial
  · next count =>
      apply Prog.asks_ofExcept_bind
      intro first _
      apply Prog.asks_ofExcept_bind
      intro object encoded
      rw [denotes.finished] at encoded
      have nonempty : progress.current ≠ [] := by
        rw [denotes.count] at count
        exact List.length_pos_iff.mp (Nat.pos_of_ne_zero count)
      have made : Made env sent object :=
        .page progress.current (fun record member => inside record (current.subset member)) nonempty
          (sorted.sublist current) (fun record member => fits record (current.subset member)) encoded
      refine (Prog.asks_request made).bind (fun _ => ?_)
      exact (appendLeafFence_makes _ leaf).bind (fun _ => trivial)

theorem BuilderState.Holds.makes {state : BuilderState} {objects : List EncodedObject} {record : Record}
    (holds : state.Holds env sent objects) : (state.push env record).Asks (Made env sent) := by
  unfold BuilderState.push
  apply Prog.asks_guard
  apply Prog.asks_guard
  apply Prog.asks_guard
  apply Prog.asks_ofExcept_bind
  intro encoded _
  refine Prog.Asks.bind ?_ (fun _ => trivial)
  obtain ⟨progress, denotes, split, _⟩ := holds.parts (partition env record.key)
  have sub : progress.records.Sublist sent := split ▸ List.filter_sublist
  unfold makeRoom
  split
  · apply Prog.asks_guard
    refine (flushPage_makes denotes (holds.sorted.sublist sub) ?_ sub.subset).bind
      (fun _ => Prog.asks_guard trivial)
    exact fun other member => holds.fits other (sub.subset member)
  · trivial

theorem BuilderState.Holds.makes_all {state : BuilderState} {objects : List EncodedObject}
    (holds : state.Holds env sent objects) :
    ∀ object ∈ (state.pushAll env more).collect.1, Made env (sent ++ more) object := by
  induction more generalizing state sent objects with
  | nil => nofun
  | cons record more ih =>
      intro object member
      rw [BuilderState.pushAll, Prog.bind_eq, Prog.collect_bind] at member
      rcases List.mem_append.mp member with early | late
      · exact (holds.makes.collect object early).mono (fun _ present => List.mem_append_left _ present)
      · cases pushed : (state.push env record).collect.2 with
        | error error =>
            rw [pushed] at late
            cases late
        | ok next =>
            rw [pushed] at late
            have made := ih (holds.push (Prod.ext rfl pushed)) object late
            rwa [List.append_assoc, List.singleton_append] at made

theorem emitted_made : ∀ object ∈ emitted env sent, Made env sent object :=
  BuilderState.holds_start.makes_all

/-! Reading such an object back. -/

theorem reference_of_verify {reference : ObjectRef} (addressed : object.Addressed env)
    (verified : verifyObject env reference object.bytes = .ok ()) : reference = object.reference := by
  obtain ⟨agrees, _⟩ := guard_eq_ok.mp verified
  obtain ⟨_, same⟩ := makeObject_eq_ok.mp addressed
  simp only [not_or, not_not] at agrees
  obtain ⟨sized, digest⟩ := agrees
  rw [same]
  cases reference
  simp only at sized digest ⊢
  rw [digest, ← sized, UInt32.ofNat_toNat]

/-- A page that was emitted holds records that were handed over. -/
theorem Made.page_read {reference : ObjectRef} {shard : Fin 16} {records : List Record}
    (lossless : env.Lossless) (made : Made env sent object)
    (decoded : decodeDataPage env reference object.bytes shard = .ok records) :
    ∀ record ∈ records, record ∈ sent := by
  obtain ⟨payload, opened, parsed⟩ := bind_eq_ok.mp decoded
  obtain ⟨_, checked⟩ := guard_eq_ok.mp opened
  obtain ⟨_, verified, checked⟩ := bind_eq_ok.mp checked
  obtain ⟨header, _⟩ := guard_eq_ok.mp checked
  cases made with
  | leaf entries inside encoded =>
      rw [(encodeIndex_eq_ok encoded).2] at header
      simp [indexMagic, compressedMagic] at header
  | page current inside nonempty sorted fits encoded =>
      obtain ⟨_, _, small, _, object_made⟩ := encodePage_eq_ok encoded
      have same := reference_of_verify (addressed_of_makeObject object_made) verified
      rw [same, decodeCompressed_encodePage lossless encoded] at opened
      cases opened
      obtain ⟨valid, written⟩ := encodePayload_parseDataPayload parsed
      have back := parseDataPayload_encodePayload
        (⟨valid.nonempty, valid.count, valid.sorted, valid.keys, by simp⟩ : RecordsValid env none records) written
      have forth : parseDataPayload env (pageBytes current) none = .ok current :=
        parseDataPayload_pageBytes nonempty small sorted fits (by simp)
      cases back.symm.trans forth
      exact inside

theorem version_of_fenceBytes {left right : Fence} {rest rest' : Bytes}
    (keys : left.key.length < 2 ^ 32 ∧ right.key.length < 2 ^ 32)
    (same : fenceBytes left ++ rest = fenceBytes right ++ rest') : left.version = right.version := by
  simp only [fenceBytes, List.append_assoc] at same
  obtain ⟨lengths, same⟩ := List.append_inj same (by simp)
  have length : left.key.length = right.key.length := by
    have equal := congrArg UInt32.toNat (be32_injective lengths)
    rwa [toNat_ofNat_of_lt keys.1, toNat_ofNat_of_lt keys.2] at equal
  obtain ⟨key, same⟩ := List.append_inj same length
  obtain ⟨block, _⟩ := List.append_inj same (by simp)
  rw [Fence.version, Fence.version, key, be64_injective block]

/-- A leaf that was emitted starts at a record that was handed over. -/
theorem Made.leaf_read {reference : ObjectRef} {shard : Fin 16} {fences : List Fence} {fence : Fence}
    (made : Made env sent object)
    (decoded : decodeIndex env reference object.bytes shard indexMagic = .ok fences)
    (first : fences.head? = some fence) : ∃ record ∈ sent, record.version = fence.version := by
  obtain ⟨valid, _, read⟩ := encodeIndex_decodeIndex decoded
  obtain ⟨size, shape⟩ := encodeIndex_eq_ok read
  cases made with
  | page records inside nonempty sorted fits encoded =>
      obtain ⟨_, _, _, _, object_made⟩ := encodePage_eq_ok encoded
      rw [(verifyObject_makeObject object_made).1] at shape
      simp [indexMagic, compressedMagic] at shape
  | leaf entries inside encoded =>
      obtain ⟨size', shape'⟩ := encodeIndex_eq_ok encoded
      obtain ⟨_, bodies⟩ := List.append_inj (shape.symm.trans shape') (by simp)
      obtain ⟨rest, rfl⟩ := List.head?_eq_some_iff.mp first
      cases entries with
      | nil =>
          have length := congrArg List.length bodies
          simp [fenceBytes] at length
      | cons entry entries =>
          obtain ⟨record, present, same⟩ := inside entry List.mem_cons_self
          refine ⟨record, present, same.trans ?_⟩
          simp only [List.flatMap_cons] at bodies
          have keys : fence.key.length < 2 ^ 32 ∧ entry.key.length < 2 ^ 32 := by
            rw [indexSize_eq] at size size'
            simp only [List.flatMap_cons, List.length_append, fenceBytes, maxIndexBytes] at size size'
            omega
          exact (version_of_fenceBytes keys bodies).symm

end

end Fossil

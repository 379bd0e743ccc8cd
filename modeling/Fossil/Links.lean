import Fossil.RunReader

/-! The objects of a run, followed from its root.

`Links` is the closure that any reader of a run stays inside, for objects with
arbitrary bytes. A walk that finishes lists exactly this closure, and a lookup asks
for nothing outside it, whatever fetches fail. -/

namespace Fossil

section

variable (env : Primitives) (view : ObjectRef → Result Bytes)

/-- The entries of an internal fence root. -/
def Parents (shard : Fin 16) (root : ObjectRef) (parents : List Fence) : Prop :=
  ∃ bytes, view root = .ok bytes ∧ internalMagic <+: bytes ∧
    decodeIndex env root bytes shard internalMagic = .ok parents

/-- The objects below one partition of a run. -/
inductive PartitionLinks (shard : Fin 16) (root : ObjectRef) : ObjectRef → Prop where
  | fenceRoot : PartitionLinks shard root root
  | fenceLeaf {parents : List Fence} {parent : Fence} (internal : Parents env view shard root parents)
      (member : parent ∈ parents) : PartitionLinks shard root parent.data
  | page {bytes : Bytes} {fences : List Fence} {fence : Fence} (read : view root = .ok bytes)
      (flat : ¬ internalMagic <+: bytes) (decoded : decodeIndex env root bytes shard indexMagic = .ok fences)
      (member : fence ∈ fences) : PartitionLinks shard root fence.data
  | deepPage {parents fences : List Fence} {parent fence : Fence} {bytes : Bytes}
      (internal : Parents env view shard root parents) (below : parent ∈ parents)
      (read : view parent.data = .ok bytes)
      (decoded : decodeIndex env parent.data bytes shard indexMagic = .ok fences)
      (member : fence ∈ fences) : PartitionLinks shard root fence.data

/-- The objects below the root of a run. -/
def RunReader.Links (reader : RunReader) (reference : ObjectRef) : Prop :=
  ∃ shard, reader.index shard ≠ .default ∧ PartitionLinks env view shard (reader.index shard) reference

end

section

variable {env : Primitives} {view : ObjectRef → Result Bytes} {shard : Fin 16}

/-- A finished read of an object, and what follows it. -/
theorem run_fetchAs_bind {α : Type} {message : String} {reference : ObjectRef} {next : Bytes → Codec α}
    {value : α} : (((fetchAs message reference).bind next).run view).2 = .ok value ↔
      ∃ bytes, view reference = .ok bytes ∧ ((next bytes).run view).2 = .ok value := by
  unfold fetchAs
  rw [Prog.run_bind_eq_ok]
  simp only [Prog.run_request, context_eq_ok]

theorem run_ofExcept_bind {α β : Type} {result : Result α} {next : α → Codec β} {value : β} :
    (((Prog.ofExcept result).bind next).run view).2 = .ok value ↔
      ∃ middle, result = .ok middle ∧ ((next middle).run view).2 = .ok value := by
  rw [Prog.run_bind_eq_ok]
  simp only [Prog.run_ofExcept]

/-! A finished walk lists the closure. -/

theorem walkLeaves_lists {parents : List Fence} {refs : List ObjectRef} {fences : List Fence}
    (done : ((walkLeaves env shard parents).run view).2 = .ok (refs, fences)) :
    refs = parents.map Fence.data ∧ ∀ fence, fence ∈ fences ↔ ∃ parent ∈ parents, ∃ bytes entries,
      view parent.data = .ok bytes ∧ decodeIndex env parent.data bytes shard indexMagic = .ok entries ∧
        fence ∈ entries := by
  induction parents generalizing refs fences with
  | nil =>
      cases done
      exact ⟨rfl, by simp⟩
  | cons parent rest ih =>
      rcases run_ofExcept_bind.mp done with ⟨_, _, fetched⟩
      rcases run_fetchAs_bind.mp fetched with ⟨bytes, read, opened⟩
      rcases run_ofExcept_bind.mp opened with ⟨entries, decoded, later⟩
      rcases Prog.run_bind_eq_ok.mp later with ⟨⟨refs', fences'⟩, others, final⟩
      rcases ih others with ⟨listed, members⟩
      cases final
      refine ⟨by rw [listed, List.map_cons], ?_⟩
      intro fence
      rw [List.mem_append, members, List.exists_mem_cons_iff]
      refine or_congr ?_ Iff.rfl
      constructor
      · intro member
        exact ⟨bytes, entries, read, decoded, member⟩
      · rintro ⟨bytes', entries', read', decoded', member⟩
        cases read.symm.trans read'
        cases decoded.symm.trans decoded'
        exact member

theorem walkPartition_lists {root : ObjectRef} {refs pages : List ObjectRef}
    (done : ((walkPartition env shard root).run view).2 = .ok (refs, pages)) (reference : ObjectRef) :
    reference ∈ refs ++ pages ↔ root ≠ .default ∧ PartitionLinks env view shard root reference := by
  unfold walkPartition at done
  split at done
  · next vacant =>
      cases done
      simp [vacant]
  · next occupied =>
      rw [and_iff_right occupied, List.mem_append]
      rcases run_ofExcept_bind.mp done with ⟨_, _, fetched⟩
      rcases run_fetchAs_bind.mp fetched with ⟨bytes, read, opened⟩
      split at opened
      · next internal =>
          rcases run_ofExcept_bind.mp opened with ⟨parents, decoded, later⟩
          rcases Prog.run_bind_eq_ok.mp later with ⟨⟨inner, leaves⟩, walked, final⟩
          cases final
          rcases walkLeaves_lists walked with ⟨rfl, members⟩
          have parents_eq : ∀ {others}, Parents env view shard root others → others = parents := by
            rintro others ⟨bytes', read', _, decoded'⟩
            cases read.symm.trans read'
            exact Except.ok.inj (decoded'.symm.trans decoded)
          have here : Parents env view shard root parents := ⟨bytes, read, internal, decoded⟩
          constructor
          · rintro (inRefs | inPages)
            · rcases List.mem_cons.mp inRefs with rfl | inner
              · exact .fenceRoot
              · rcases List.mem_map.mp inner with ⟨parent, member, rfl⟩
                exact .fenceLeaf here member
            · rcases List.mem_map.mp inPages with ⟨fence, inside, rfl⟩
              rcases (members fence).mp inside with ⟨parent, below, leaf, entries, readLeaf, opens, member⟩
              exact .deepPage here below readLeaf opens member
          · intro links
            cases links with
            | fenceRoot => exact .inl List.mem_cons_self
            | fenceLeaf above member =>
                rw [parents_eq above] at member
                exact .inl (List.mem_cons_of_mem _ (List.mem_map_of_mem member))
            | page read' flat =>
                cases read.symm.trans read'
                exact absurd internal flat
            | deepPage above below readLeaf opens member =>
                rw [parents_eq above] at below
                exact .inr (List.mem_map_of_mem ((members _).mpr ⟨_, below, _, _, readLeaf, opens, member⟩))
      · next flat =>
          rcases run_ofExcept_bind.mp opened with ⟨leaves, decoded, final⟩
          cases final
          have noParents : ∀ {others}, ¬ Parents env view shard root others := by
            rintro others ⟨bytes', read', internal, _⟩
            cases read.symm.trans read'
            exact flat internal
          constructor
          · rintro (inRefs | inPages)
            · rw [List.mem_singleton.mp inRefs]
              exact .fenceRoot
            · rcases List.mem_map.mp inPages with ⟨fence, member, rfl⟩
              exact .page read flat decoded member
          · intro links
            cases links with
            | fenceRoot => exact .inl (List.mem_singleton.mpr rfl)
            | fenceLeaf above => exact absurd above noParents
            | page read' _ decoded' member =>
                cases read.symm.trans read'
                cases decoded.symm.trans decoded'
                exact .inr (List.mem_map_of_mem member)
            | deepPage above => exact absurd above noParents

theorem walkPartitions_lists {reader : RunReader} {shards : List (Fin 16)} {refs : List ObjectRef}
    {pages : List (List ObjectRef)}
    (done : ((walkPartitions env reader shards).run view).2 = .ok (refs, pages)) (reference : ObjectRef) :
    reference ∈ refs ++ pages.flatten ↔ ∃ shard ∈ shards, reader.index shard ≠ .default ∧
      PartitionLinks env view shard (reader.index shard) reference := by
  induction shards generalizing refs pages with
  | nil =>
      cases done
      simp
  | cons shard rest ih =>
      rcases Prog.run_bind_eq_ok.mp done with ⟨⟨first, firstPages⟩, walked, later⟩
      rcases Prog.run_bind_eq_ok.mp later with ⟨⟨others, otherPages⟩, walkedRest, final⟩
      cases final
      rw [List.exists_mem_cons_iff, ← walkPartition_lists walked reference, ← ih walkedRest]
      simp only [List.mem_append, List.flatten_cons]
      tauto

/-- A finished walk lists exactly the objects below the root. -/
theorem objectRefs_lists {reader : RunReader} {refs : List ObjectRef}
    (done : ((reader.objectRefs env).run view).2 = .ok refs) (reference : ObjectRef) :
    reference ∈ refs ↔ reader.Links env view reference := by
  rcases Prog.run_bind_eq_ok.mp done with ⟨⟨inner, pages⟩, walked, final⟩
  cases final
  rw [walkPartitions_lists walked]
  simp [RunReader.Links]

/-! Lookups stay inside the closure. -/

/-- The bytes of the object, or a failed fetch. -/
def Views (view : ObjectRef → Result Bytes) (reference : ObjectRef) (_ : Unit) (reply : Result Bytes)
    (_ : Unit) : Prop :=
  reply = view reference ∨ ∃ error, reply = .error error

/-- Served from `view`, the code asks for good objects only. -/
abbrev Tracks {α : Type} (view : ObjectRef → Result Bytes) (good : ObjectRef → Prop) (code : Codec α) : Prop :=
  code.Confined (fun reference _ => good reference) (Views view) (fun _ _ => True) ()

theorem floorEntry_mem {α : Type} {key : α → Version} {target : Version} {items : List α} {item : α}
    (found : floorEntry key target items = some item) : item ∈ items := by
  unfold floorEntry at found
  dsimp only at found
  split at found
  · cases found
  · exact List.mem_of_getElem? found

/-- Continue with bytes that are those of the object. -/
theorem fetchAs_confined {α : Type} {good : ObjectRef → Prop} {message : String} {reference : ObjectRef}
    {next : Bytes → Codec α} (isGood : good reference)
    (rest : ∀ bytes, view reference = .ok bytes →
      Tracks view good (next bytes)) : Tracks view good ((fetchAs message reference).bind next) := by
  apply Prog.confined_request_bind isGood (fun _ _ => trivial)
  intro reply after bytes answered done
  rw [context_eq_ok] at done
  rcases answered with same | ⟨error, failed⟩
  · exact rest bytes (same.symm.trans done)
  · rw [done] at failed
    cases failed

theorem lookupLeaf_confined {good : ObjectRef → Prop} {key : Bytes} {block : UInt64} {leafRef : ObjectRef}
    {leafBytes : Bytes} {expectedStart : Option Version}
    (pages : ∀ fences, decodeIndex env leafRef leafBytes shard indexMagic = .ok fences →
      ∀ fence ∈ fences, good fence.data) :
    Tracks view good (lookupLeaf env shard key block leafRef leafBytes expectedStart) := by
  apply Prog.confined_ofExcept_bind (fun _ => trivial)
  intro fences decoded
  split
  · trivial
  · split
    · trivial
    · next fence found =>
        split
        · trivial
        · apply fetchAs_confined (pages fences decoded fence (floorEntry_mem found))
          intro bytes _
          apply Prog.confined_ofExcept_bind (fun _ => trivial)
          intro records _
          split
          · trivial
          · split <;> trivial

/-- A lookup asks for objects below the root only. -/
theorem lookup_confined (reader : RunReader) (key : Bytes) (block : UInt64) :
    Tracks view (reader.Links env view) (reader.lookup env key block) := by
  unfold RunReader.lookup
  split
  · trivial
  · dsimp only
    split
    · trivial
    · next occupied =>
        have inside : ∀ reference, PartitionLinks env view (partition env key)
            (reader.index (partition env key)) reference → reader.Links env view reference :=
          fun reference links => ⟨_, occupied, links⟩
        apply Prog.confined_ofExcept_bind (fun _ => trivial)
        intro _ _
        apply fetchAs_confined (inside _ .fenceRoot)
        intro bytes read
        split
        · next internal =>
            apply Prog.confined_ofExcept_bind (fun _ => trivial)
            intro parents decoded
            have above : Parents env view _ _ parents := ⟨bytes, read, internal, decoded⟩
            split
            · trivial
            · next parent found =>
                apply Prog.confined_ofExcept_bind (fun _ => trivial)
                intro _ _
                apply fetchAs_confined (inside _ (.fenceLeaf above (floorEntry_mem found)))
                intro leaf readLeaf
                apply lookupLeaf_confined
                intro fences opens fence member
                exact inside _ (.deepPage above (floorEntry_mem found) readLeaf opens member)
        · next flat =>
            apply lookupLeaf_confined
            intro fences opens fence member
            exact inside _ (.page read flat opens member)

/-! So do walks. -/

theorem walkLeaves_confined {good : ObjectRef → Prop} {parents : List Fence}
    (leaves : ∀ parent ∈ parents, good parent.data) :
    Tracks view good (walkLeaves env shard parents) := by
  induction parents with
  | nil => trivial
  | cons parent rest ih =>
      apply Prog.confined_ofExcept_bind (fun _ => trivial)
      intro _ _
      apply fetchAs_confined (leaves parent List.mem_cons_self)
      intro bytes _
      apply Prog.confined_ofExcept_bind (fun _ => trivial)
      intro fences _
      apply Prog.Confined.bind
      apply (ih (fun other member => leaves other (List.mem_cons_of_mem _ member))).weaken
      intro outcome _ _
      cases outcome <;> trivial

theorem walkPartition_confined {reader : RunReader} :
    Tracks view (reader.Links env view) (walkPartition env shard (reader.index shard)) := by
  unfold walkPartition
  split
  · trivial
  · next occupied =>
      have inside : ∀ reference, PartitionLinks env view shard (reader.index shard) reference →
          reader.Links env view reference := fun reference links => ⟨_, occupied, links⟩
      apply Prog.confined_ofExcept_bind (fun _ => trivial)
      intro _ _
      apply fetchAs_confined (inside _ .fenceRoot)
      intro bytes read
      split
      · next internal =>
          apply Prog.confined_ofExcept_bind (fun _ => trivial)
          intro parents decoded
          have leaves : ∀ parent ∈ parents, reader.Links env view parent.data :=
            fun parent member => inside _ (.fenceLeaf ⟨bytes, read, internal, decoded⟩ member)
          apply Prog.Confined.bind
          apply (walkLeaves_confined leaves).weaken
          intro outcome _ _
          cases outcome <;> trivial
      · apply Prog.confined_ofExcept_bind (fun _ => trivial)
        intro fences _
        trivial

theorem walkPartitions_confined (reader : RunReader) (shards : List (Fin 16)) :
    Tracks view (reader.Links env view) (walkPartitions env reader shards) := by
  induction shards with
  | nil => trivial
  | cons shard rest ih =>
      apply Prog.Confined.bind
      apply walkPartition_confined.weaken
      intro outcome _ _
      cases outcome with
      | error error => trivial
      | ok found =>
          apply Prog.Confined.bind
          apply ih.weaken
          intro outcome _ _
          cases outcome <;> trivial

/-- A walk depends on the objects below the root only. -/
theorem objectRefs_congr {view' : ObjectRef → Result Bytes} {reader : RunReader}
    (same : ∀ reference, reader.Links env view reference → view' reference = view reference) :
    (reader.objectRefs env).run view' = (reader.objectRefs env).run view := by
  have confined : Tracks view (reader.Links env view) (reader.objectRefs env) := by
    apply Prog.Confined.bind
    apply (walkPartitions_confined reader _).weaken
    intro outcome _ _
    cases outcome <;> trivial
  exact Prog.run_congr (fun reference asked => same reference (confined.run (fun _ => .inl rfl) reference asked))

end

end Fossil

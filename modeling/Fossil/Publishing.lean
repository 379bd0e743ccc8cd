import Fossil.Protocol

/-! Publication and compaction keep the protocol.

Both read a head, prepare objects and swap the head. What they prepared stays
valid for the head they swap over, because a version pins the bytes it was read
with and every later head continues the history of an earlier one. -/

namespace Fossil

section

variable {env : Externals} {accepts : Package → Prop} {backend : Backend} {faulty : StoreOp → Prop} {owner : Call}
  {chainId : UInt64} {state after : ArchiveSystem}

/-- What a version says of the head it was read with. A write counter names bytes
for good, and stays in force as long as nothing is committed. -/
def Pins (env : Externals) (backend : Backend) (chainId : UInt64) (found : VersionedBytes)
    (commits : List (Commit Call)) (state : ArchiveSystem) : Prop :=
  match backend with
  | .memory => ∃ version, found.version = .counter version ∧ version ≤ state.nextVersion ∧
      (∀ entry, state.lookup (.head chainId) = some entry → entry.version = version →
        entry.bytes = found.bytes) ∧
      (state.commits chainId = commits → ∀ entry, state.lookup (.head chainId) = some entry →
        entry.version = version)
  | .filesystem => found.version = .digest (env.sha256 found.bytes)

/-- A head as it was read: the end of a history that the store continues, under a
version that goes with it. -/
structure Observed (backend : Backend) (chainId : UInt64) (found : VersionedBytes) (head : Head)
    (commits : List (Commit Call)) (manifest : Manifest env accepts) (state : ArchiveSystem) : Prop where
  early : commits <+: state.commits chainId
  history : History env accepts chainId (Holds state) commits manifest found.bytes
  head : ∃ parent, head = manifest.head parent
  pinned : Pins env backend chainId found commits state

section

variable {found : VersionedBytes} {head : Head} {commits : List (Commit Call)}
  {manifest : Manifest env accepts}

theorem History.later {bytes : Bytes}
    (history : History env accepts chainId (Holds state) commits manifest bytes)
    (kept : Kept state after) : History env accepts chainId (Holds after) commits manifest bytes :=
  history.mono (fun _ _ immutable present => kept.content immutable present)

theorem Pins.later (pins : Pins env backend chainId found commits state)
    (early : commits <+: state.commits chainId) (kept : Kept state after) :
    Pins env backend chainId found commits after := by
  cases backend with
  | memory =>
      rcases pins with ⟨version, same, old, names, current⟩
      refine ⟨version, same, old.trans kept.versions, ?_, ?_⟩
      · intro entry present versioned
        exact names entry (kept.heads present (versioned ▸ old)) versioned
      · intro unmoved entry present
        have late := kept.commits chainId
        rw [unmoved] at late
        have between := early.eq_of_length_le late.length_le
        rw [kept.fixed chainId (unmoved.trans between)] at present
        exact current between.symm entry present
  | filesystem => exact pins

theorem Observed.later (observed : Observed backend chainId found head commits manifest state)
    (kept : Kept state after) : Observed backend chainId found head commits manifest after :=
  ⟨observed.early.trans (kept.commits chainId), observed.history.later kept, observed.head,
    observed.pinned.later observed.early kept⟩

/-- The manifest of an observation grows into that of any longer history. -/
theorem Observed.grows (observed : Observed backend chainId found head commits manifest state)
    {more : List (Commit Call)} {next : Manifest env accepts} {bytes : Bytes} {durable : Key → Bytes → Prop}
    (history : History env accepts chainId durable more next bytes) (longer : commits <+: more) :
    manifest.Grows next := by
  rcases history.split longer observed.history.commits_ne_nil with ⟨old, previous, before, grows⟩
  rw [observed.history.unique before]
  exact grows

end

/-- The head of a store is the end of the history of its chain. -/
theorem Inv.observed (inv : Inv env accepts backend state) {entry : Entry}
    (present : state.lookup (.head chainId) = some entry) :
    ∃ manifest : Manifest env accepts,
      History env accepts chainId (Holds state) (state.commits chainId) manifest entry.bytes := by
  have content := inv.heads chainId
  rw [System.content, present] at content
  have nonempty : state.commits chainId ≠ [] := by
    intro nothing
    rw [nothing] at content
    cases content
  rcases inv.history chainId nonempty with ⟨manifest, bytes, history⟩
  have last := history.last
  rw [← content] at last
  cases last
  exact ⟨manifest, history⟩

/-- Reading a head observes the history at that moment. -/
theorem readHead_safe (codec : HeadsRoundTrip env) :
    (readHead env chainId).Safe (archiveWorld env backend faulty)
      (archiveProtocol env accepts backend) owner
      (Prog.Returns (fun found later => ∀ bytes head, found = some (bytes, head) →
        ∃ (commits : List (Commit Call)) (manifest : Manifest env accepts),
          Observed backend chainId bytes head commits manifest later ∧ state.commits chainId <+: commits ∧
            Head.decode env bytes.bytes = .ok head)) state := by
  intro middle moves inv reply after stepped
  have idle := step_idle inv stepped (fun _ => rfl) trivial
  refine ⟨idle.1, idle.2, ?_⟩
  apply Prog.safe_ofExcept_bind
  intro found done
  cases found with
  | none => exact Prog.safe_ret_returns (fun _ _ _ bytes head same => nomatch same)
  | some bytes =>
      apply Prog.safe_ofExcept_bind
      intro head decoded
      apply Prog.safe_guard
      intro _
      apply Prog.safe_ret_returns
      intro later moved _ bytes' head' same
      cases same
      rcases step_read stepped bytes done with ⟨entry, present, rfl⟩
      rcases Inv.observed inv present with ⟨manifest, history⟩
      rcases history.head.1 with ⟨parent, encoded⟩
      have same := (decode_head codec encoded).symm.trans decoded
      refine ⟨middle.commits chainId, manifest, ?_, Kept.commits moves chainId, decoded⟩
      have here : Observed backend chainId ⟨entry.bytes, System.versionOf env.toPrimitives backend entry⟩
          head (middle.commits chainId) manifest middle := by
        refine ⟨List.prefix_rfl, history, ⟨parent, (Except.ok.inj same).symm⟩, ?_⟩
        cases backend with
        | memory =>
            refine ⟨entry.version, rfl, inv.versions present, ?_, ?_⟩
            · intro other now _
              rw [present] at now
              cases now
              rfl
            · intro _ other now
              rw [present] at now
              cases now
              rfl
        | filesystem => rfl
      exact here.later (Kept.trans idle.2 moved)

/-! Swaps. -/

theorem matching_some {found : VersionedBytes}
    (matched : state.matching env.toPrimitives backend (.head chainId) (some found) = true) :
    ∃ entry, state.lookup (.head chainId) = some entry ∧
      found.version = System.versionOf env.toPrimitives backend entry := by
  unfold System.matching at matched
  split at matched
  · next contra _ => cases contra
  · next expected entry same present =>
      cases same
      exact ⟨entry, present, of_decide_eq_true matched⟩
  · cases matched

theorem matching_none
    (matched : state.matching env.toPrimitives backend (.head chainId) none = true) :
    state.lookup (.head chainId) = none := by
  unfold System.matching at matched
  split at matched
  · assumption
  · next contra _ => cases contra
  · cases matched

/-- The bytes of a head are those of a commit. -/
theorem Inv.logged (inv : Inv env accepts backend state) {entry : Entry}
    (present : state.lookup (.head chainId) = some entry) :
    ∃ commit ∈ state.commits chainId, commit.bytes = entry.bytes := by
  have content := inv.heads chainId
  rw [System.content, present] at content
  rcases Option.map_eq_some_iff.mp content.symm with ⟨commit, last, same⟩
  exact ⟨commit, List.mem_of_getLast? last, same⟩

/-- A version in force names the bytes it was read with. -/
theorem Observed.bytes_eq {found : VersionedBytes} {head : Head} {commits : List (Commit Call)}
    {manifest : Manifest env accepts} (observed : Observed backend chainId found head commits manifest state)
    (inv : Inv env accepts backend state) {entry : Entry}
    (present : state.lookup (.head chainId) = some entry)
    (version : found.version = System.versionOf env.toPrimitives backend entry) :
    entry.bytes = found.bytes := by
  have pins := observed.pinned
  cases backend with
  | memory =>
      rcases pins with ⟨counter, same, _, names, _⟩
      rw [same] at version
      exact names entry present (VersionTag.counter.inj version).symm
  | filesystem =>
      replace pins : found.version = .digest (env.sha256 found.bytes) := pins
      rw [pins] at version
      rcases inv.logged present with ⟨commit, member, same⟩
      rcases Option.map_eq_some_iff.mp observed.history.last with ⟨early, last, sameEarly⟩
      have old := observed.early.subset (List.mem_of_getLast? last)
      rw [← same, ← sameEarly]
      refine inv.distinct rfl commit (List.mem_of_mem_filter member) early (List.mem_of_mem_filter old) ?_
      rw [same, sameEarly]
      exact (VersionTag.digest.inj version).symm

/-- The bytes read are still there only if the version is still in force. -/
theorem Observed.version_eq (codec : HeadsRoundTrip env) {found : VersionedBytes} {head : Head}
    {commits : List (Commit Call)} {manifest : Manifest env accepts}
    (observed : Observed backend chainId found head commits manifest state)
    (inv : Inv env accepts backend state) {entry : Entry}
    (present : state.lookup (.head chainId) = some entry) (same : entry.bytes = found.bytes) :
    found.version = System.versionOf env.toPrimitives backend entry := by
  have pins := observed.pinned
  rcases inv.observed present with ⟨current, history⟩
  rw [same] at history
  have unmoved := history.unmoved codec observed.history observed.early
  cases backend with
  | memory =>
      rcases pins with ⟨counter, versioned, _, _, inForce⟩
      rw [versioned, ← inForce unmoved.symm entry present]
      rfl
  | filesystem =>
      replace pins : found.version = .digest (env.sha256 found.bytes) := pins
      rw [pins, ← same]
      rfl

/-- A swap succeeds over a head with the bytes and the version it expects. -/
theorem compareAndSwap_of_matching {found : VersionedBytes} {entry : Entry} {bytes : Bytes}
    (present : state.lookup (.head chainId) = some entry) (same : entry.bytes = found.bytes)
    (version : found.version = System.versionOf env.toPrimitives backend entry) :
    (state.compareAndSwap env.toPrimitives backend owner (.head chainId) (some found) bytes).1 = .ok () := by
  have matched : state.matching env.toPrimitives backend (.head chainId) (some found) = true := by
    unfold System.matching
    rw [present]
    exact decide_eq_true version
  have short : ¬ (backend = .filesystem ∧ ∃ current ∈ state.lookup (.head chainId),
      current.bytes.length > max found.bytes.length bytes.length) := by
    rintro ⟨_, current, here, long⟩
    rw [present] at here
    cases here
    rw [same] at long
    omega
  unfold System.compareAndSwap
  dsimp only [Option.elim_some]
  rw [if_neg short, if_pos matched]

/-- A swap of the head over one that was read is told from its bytes, on either store. -/
theorem Observed.undisturbed (codec : HeadsRoundTrip env) {found : VersionedBytes} {head : Head}
    {commits : List (Commit Call)} {manifest : Manifest env accepts}
    (observed : Observed backend chainId found head commits manifest state)
    (inv : Inv env accepts backend state) (bytes : Bytes) :
    Undisturbed env.toPrimitives backend owner (.compareAndSwap (.head chainId) (some found) bytes) state := by
  refine ⟨?_, ?_, ?_⟩
  · intro expected same
    cases same
    rcases Option.map_eq_some_iff.mp observed.history.last with ⟨commit, last, bytes⟩
    exact ⟨commit, observed.early.subset (List.mem_of_getLast? last), bytes⟩
  · intro done
    rcases state.compareAndSwap_cases env.toPrimitives backend owner chainId (some found) bytes with
      ⟨failed, _⟩ | ⟨_, matched, _⟩
    · exact absurd done failed
    · rcases matching_some matched with ⟨entry, present, version⟩
      rw [System.content, present, Option.map_some, observed.bytes_eq inv present version]
      rfl
  · intro content
    rcases Option.map_eq_some_iff.mp content with ⟨entry, present, same⟩
    exact compareAndSwap_of_matching present same (observed.version_eq codec inv present same)

theorem undisturbed_none (bytes : Bytes) :
    Undisturbed env.toPrimitives backend owner (.compareAndSwap (.head chainId) none bytes) state := by
  refine ⟨fun _ => nofun, ?_, ?_⟩
  · intro done
    rcases state.compareAndSwap_cases env.toPrimitives backend owner chainId none bytes with
      ⟨failed, _⟩ | ⟨_, matched, _⟩
    · exact absurd done failed
    · rw [System.content, matching_none matched]
      rfl
  · intro content
    have absent : state.lookup (.head chainId) = none := Option.map_eq_none_iff.mp content
    unfold System.compareAndSwap System.matching
    simp [absent]

/-- Swapping a head commits only what continues the history. -/
theorem compareAndSwap_safe {expected : Option VersionedBytes} {bytes : Bytes}
    (permitted : ∀ later, Kept state later → Inv env accepts backend later →
      Undisturbed env.toPrimitives backend owner (.compareAndSwap (.head chainId) expected bytes) later)
    (legal : ∀ later, Kept state later → Inv env accepts backend later →
      later.content (.head chainId) = expected.map VersionedBytes.bytes →
      ∃ manifest, History env accepts chainId (Holds later)
        (later.commits chainId ++ [⟨owner, .head chainId, bytes⟩]) manifest bytes) :
    (compareAndSwap (.head chainId) expected bytes).Safe (archiveWorld env backend faulty)
      (archiveProtocol env accepts backend) owner (Prog.Returns (fun _ later =>
        (⟨owner, .head chainId, bytes⟩ : Commit Call) ∈ later.commits chainId)) state := by
  intro middle moves inv reply after stepped
  rcases step_swap (permitted middle moves inv) stepped with
    ⟨clock, ⟨rfl, failed⟩ | ⟨unchanged, rfl, distinct⟩⟩
  · refine ⟨Inv.tick inv clock, Kept.tick middle clock, Prog.safe_ofExcept ?_⟩
    intro later _ _ value done
    exact absurd done failed
  · have ticked := Kept.trans moves (Kept.tick middle clock)
    rcases legal _ ticked (Inv.tick inv clock) unchanged with ⟨manifest, history⟩
    refine ⟨(Inv.tick inv clock).commit history distinct,
      Kept.trans (Kept.tick middle clock) (Kept.commit _ _ _ _ _), Prog.safe_ofExcept ?_⟩
    intro later moved _ value _
    apply (Kept.commits moved chainId).subset
    rw [commits_commit, if_pos rfl]
    exact List.mem_append_right _ (List.mem_singleton.mpr rfl)

theorem stage_safe {bytes : Bytes} :
    (stage env bytes).Safe (archiveWorld env backend faulty) (archiveProtocol env accepts backend)
      owner (Prog.Returns (fun reference later => reference = copyRef env bytes ∧
        Holds later (.object (env.sha256 bytes)) bytes)) state := by
  apply Prog.safe_ofExcept_bind
  intro length fits
  rw [(tryU32_eq_ok.mp fits).2]
  apply ((hosting accepts backend faulty owner).putImmutable_safe rfl rfl).returns_bind
  intro _ later _ _ stored
  apply Prog.safe_ret_returns
  intro final moves _
  exact ⟨rfl, Kept.content moves rfl stored⟩

/-- A swap over an observed head commits one step of its manifest. -/
theorem swap_safe (codec : HeadsRoundTrip env) {previous : VersionedBytes} {head next : Head}
    {commits : List (Commit Call)} {manifest : Manifest env accepts}
    (observed : Observed backend chainId previous head commits manifest state) (chain : next.chainId = chainId)
    (legal : ∀ later current, Kept state later →
      History env accepts chainId (Holds later) (later.commits chainId) current previous.bytes →
      (∃ parent, head = current.head parent) →
      ∃ piece after, current.Step owner piece after ∧
        (∀ parent, { next with parent := parent } = after.head parent) ∧
        ∀ object ∈ piece.stored, Holds later object.1 object.2) :
    (swap env (some previous) next).Safe (archiveWorld env backend faulty)
      (archiveProtocol env accepts backend) owner (Prog.Returns (fun _ later =>
        ∃ bytes, (⟨owner, .head chainId, bytes⟩ : Commit Call) ∈ later.commits chainId)) state := by
  have staged : (stageParent env (some previous)).Safe (archiveWorld env backend faulty)
      (archiveProtocol env accepts backend) owner (Prog.Returns (fun parent later =>
        parent = some (copyRef env previous.bytes) ∧
          Holds later (.object (env.sha256 previous.bytes)) previous.bytes)) state := by
    apply stage_safe.returns_bind
    intro reference later _ _ ⟨same, stored⟩
    apply Prog.safe_ret_returns
    intro final moves _
    exact ⟨congrArg some same, Kept.content moves rfl stored⟩
  apply staged.returns_bind
  intro parent ready moves _ ⟨same, copied⟩
  subst same
  apply Prog.safe_ofExcept_bind
  intro bytes encoded
  apply Prog.safe_guard
  intro small
  rw [chain]
  refine (compareAndSwap_safe ?_ ?_).weaken
    (fun outcome later _ _ holds value done => ⟨bytes, holds value done⟩)
  · intro later moved inv
    exact (observed.later (Kept.trans moves moved)).undisturbed codec inv bytes
  intro later moved inv unchanged
  have reached := Kept.trans moves moved
  have here := observed.later reached
  rcases Option.map_eq_some_iff.mp unchanged with ⟨entry, present, bytesSame⟩
  rcases inv.observed present with ⟨current, history⟩
  rw [bytesSame] at history
  -- the head in force is the one observed, since both are what the bytes decode to
  have sameHead : ∃ parent, head = current.head parent := by
    rcases here.head with ⟨parent, rfl⟩
    rcases here.history.head.1 with ⟨parent₁, encoded₁⟩
    rcases history.head.1 with ⟨parent₂, encoded₂⟩
    have decoded := codec _ _ encoded₁
    rw [codec _ _ encoded₂] at decoded
    have heads := Except.ok.inj decoded
    refine ⟨parent, ?_⟩
    calc manifest.head parent = { manifest.head parent₁ with parent := parent } := rfl
      _ = { current.head parent₂ with parent := parent } := by rw [heads]
      _ = current.head parent := rfl
  rcases legal later current reached history sameHead with ⟨piece, after, step, heads, stored⟩
  refine ⟨after, .step history step ?_ (Nat.le_of_not_gt small) stored (Kept.content moved rfl copied)⟩
  rw [← heads]
  exact encoded

/-! Publication. -/

/-- Two packages with one origin: the same end of the same chain, read from inputs
with one digest. -/
structure SameOrigin (left right : Package) : Prop where
  chainId : left.segment.chainId = right.segment.chainId
  genesis : left.segment.genesisHash = right.segment.genesisHash
  ends : left.segment.blocks.getLast?.map (fun last => (last.number, last.hash)) =
    right.segment.blocks.getLast?.map (fun last => (last.number, last.hash))
  input : left.inputSha256 = right.inputSha256

/-- The packages committed to a chain, in order. -/
def committed (state : ArchiveSystem) (chainId : UInt64) : List Package :=
  (state.commits chainId).filterMap Commit.package?

/-- A package, or one of the same origin, has been committed. -/
def Published (accepts : Package → Prop) (state : ArchiveSystem) (package : Package) : Prop :=
  ∃ other ∈ committed state package.segment.chainId, accepts other ∧ SameOrigin other package

theorem Kept.published {package : Package} (kept : Kept state after)
    (published : Published accepts state package) : Published accepts after package := by
  rcases published with ⟨other, member, same⟩
  exact ⟨other, ((kept.commits _).filterMap _).subset member, same⟩

theorem SameOrigin.refl (package : Package) : SameOrigin package package := ⟨rfl, rfl, rfl, rfl⟩

theorem Observed.published {found : VersionedBytes} {head : Head} {commits : List (Commit Call)}
    {manifest : Manifest env accepts} {package : Package}
    (observed : Observed backend chainId found head commits manifest state)
    (ends : isPublished head package = true) : Published accepts state package := by
  rcases observed.head with ⟨parent, rfl⟩
  unfold isPublished at ends
  split at ends
  · cases ends
  · next last back =>
      rcases of_decide_eq_true ends with ⟨chain, genesis, number, hash, input⟩
      refine ⟨manifest.last.package, ?_, manifest.last.accepted, chain, genesis, ?_, input⟩
      · have inside : manifest.last.package ∈ commits.filterMap Commit.package? := by
          rw [observed.history.packages]
          exact List.mem_map_of_mem (List.mem_append_right _ (List.mem_singleton.mpr rfl))
        rw [← chain]
        show _ ∈ committed state manifest.last.package.segment.chainId
        rw [observed.history.head.2.2]
        exact (observed.early.filterMap _).subset inside
      · rw [manifest.last.back, back]
        exact congrArg some (Prod.ext number hash)

/-- A publication that may be appended to a head. -/
structure Extends (head : Head) (publication : Publication env accepts) : Prop where
  chainId : head.chainId = publication.package.segment.chainId
  genesis : head.genesis = publication.package.segment.genesisHash
  number : checkedSucc head.number = some publication.first.number
  parent : publication.first.parentHash = head.hash
  room : head.l0.length < maxL0Backlog

theorem Extends.continues {manifest : Manifest env accepts} {parent : Option ObjectRef}
    {publication : Publication env accepts} (extends_ : Extends (manifest.head parent) publication) :
    manifest.last.Continues publication ∧ manifest.l0.length < maxL0Backlog := by
  refine ⟨⟨extends_.chainId, extends_.genesis, extends_.number, extends_.parent⟩, ?_⟩
  have room := extends_.room
  simpa only [Manifest.head, List.length_map] using room

/-- A head rewritten by compactions only can still be extended. -/
theorem Extends.rebase {old new : Manifest env accepts} {parent parent' : Option ObjectRef}
    {publication : Publication env accepts} (extends_ : Extends (old.head parent) publication)
    (grows : old.Grows new) (number : (new.head parent').number = (old.head parent).number) :
    Extends (new.head parent') publication := by
  have publications := grows.publications_eq number
  have last := Manifest.Grows.last_eq publications
  have shorter : new.l0.length ≤ old.l0.length := by
    have folds := Nat.mul_le_mul_left l0Trigger grows.folds
    rw [Manifest.l0_length, Manifest.l0_length, Manifest.pieces, Manifest.pieces, publications]
    omega
  have room := extends_.room
  refine ⟨?_, ?_, ?_, ?_, ?_⟩
  · exact (congrArg (fun publication => publication.package.segment.chainId) last).symm.trans extends_.chainId
  · exact (congrArg (fun publication => publication.package.segment.genesisHash) last).symm.trans
      extends_.genesis
  · rw [number]
    exact extends_.number
  · exact extends_.parent.trans (congrArg (fun publication => publication.last.hash) last)
  · simp only [Manifest.head, List.length_map] at room ⊢
    omega

/-- What a publication found before it swaps: nothing, or a head it extends. -/
def Ready (backend : Backend) (publication : Publication env accepts) (state : ArchiveSystem) :
    Option (VersionedBytes × Head) → Prop
  | none => publication.Begins
  | some (found, head) => Extends head publication ∧
      ∃ (commits : List (Commit Call)) (manifest : Manifest env accepts),
        Observed backend publication.package.segment.chainId found head commits manifest state

theorem Ready.later {publication : Publication env accepts} {previous : Option (VersionedBytes × Head)}
    (ready : Ready backend publication state previous) (kept : Kept state after) :
    Ready backend publication after previous := by
  rcases previous with _ | ⟨found, head⟩
  · exact ready
  · rcases ready with ⟨extends_, commits, manifest, observed⟩
    exact ⟨extends_, commits, manifest, observed.later kept⟩

/-- One swap of a publication. -/
theorem publishSwap_safe (codec : HeadsRoundTrip env) {publication : Publication env accepts}
    {gate : PublicationGate} {previous : Option (VersionedBytes × Head)}
    (stored : ∀ object ∈ publication.piece.stored, Holds state object.1 object.2)
    (ready : Ready backend publication state previous) :
    (swap env (previous.map Prod.fst) (appendHead publication.package publication.first publication.last
      publication.piece.run (previous.map Prod.snd))).Safe (archiveWorld env backend faulty)
      (archiveProtocol env accepts backend) (.publish publication.package gate)
      (Prog.Returns (fun _ later => ∃ bytes,
        (⟨.publish publication.package gate, .head publication.package.segment.chainId, bytes⟩ :
          Commit Call) ∈ later.commits publication.package.segment.chainId)) state := by
  have kept : ∀ later, Kept state later →
      ∀ object ∈ publication.piece.stored, Holds later object.1 object.2 :=
    fun later moves object member =>
      moves.content (publication.piece.immutable object member) (stored object member)
  rcases previous with _ | ⟨found, head⟩
  · -- the first head: nothing is there when the swap succeeds
    apply Prog.safe_ofExcept_bind
    intro bytes encoded
    apply Prog.safe_guard
    intro small
    refine (compareAndSwap_safe (fun _ _ _ => undisturbed_none bytes) ?_).weaken
      (fun outcome later _ _ holds value done => ⟨bytes, holds value done⟩)
    intro later moves inv unchanged
    have content := inv.heads publication.package.segment.chainId
    have absent : later.content (.head publication.package.segment.chainId) = none := unchanged
    rw [absent] at content
    have nothing : later.commits publication.package.segment.chainId = [] := by
      cases list : later.commits publication.package.segment.chainId with
      | nil => rfl
      | cons first rest =>
          rw [list] at content
          simp at content
    refine ⟨Manifest.single publication ready, ?_⟩
    show History env accepts publication.package.segment.chainId _
      (later.commits publication.package.segment.chainId ++ _) _ _
    rw [nothing]
    exact .anchor ready rfl encoded (Nat.le_of_not_gt small) (kept later moves)
  · rcases ready with ⟨extends_, commits, manifest, observed⟩
    refine swap_safe codec observed ?_ ?_
    · exact extends_.chainId
    intro later current moves _ ⟨parent, same⟩
    subst same
    rcases extends_.continues with ⟨continues, room⟩
    exact ⟨_, _, .append publication gate continues room, fun parent => Manifest.head_append continues room,
      kept later moves⟩

theorem published_of_commit {publication : Publication env accepts} {gate : PublicationGate} {bytes : Bytes}
    (member : (⟨.publish publication.package gate, .head publication.package.segment.chainId, bytes⟩ :
      Commit Call) ∈ state.commits publication.package.segment.chainId) :
    Published accepts state publication.package :=
  ⟨publication.package, List.mem_filterMap.mpr ⟨_, member, rfl⟩, publication.accepted, .refl _⟩

/-- The swap loop: a retry goes over a head that compactions rewrote. -/
theorem publishLoop_safe (codec : HeadsRoundTrip env) {publication : Publication env accepts}
    {gate : PublicationGate} {attempts : Nat} {previous : Option (VersionedBytes × Head)}
    (stored : ∀ object ∈ publication.piece.stored, Holds state object.1 object.2)
    (ready : Ready backend publication state previous) :
    (publishLoop env publication.package publication.first publication.last publication.piece.run
      attempts previous).Safe (archiveWorld env backend faulty)
      (archiveProtocol env accepts backend) (.publish publication.package gate)
      (Prog.Returns (fun _ later => Published accepts later publication.package)) state := by
  induction attempts generalizing previous state with
  | zero => exact Prog.safe_fail_returns
  | succ attempts ih =>
      apply (publishSwap_safe codec stored ready).attempt_delivers.delivers_returns.returns_bind
      intro swapped middle moves _ outcome
      cases swapped with
      | ok value =>
          apply Prog.safe_ret_returns
          intro later moved _
          rcases outcome () rfl with ⟨bytes, member⟩
          exact moved.published (published_of_commit member)
      | error error =>
          have ready' := ready.later moves
          have stored' : ∀ object ∈ publication.piece.stored, Holds middle object.1 object.2 :=
            fun object member =>
              Kept.content moves (publication.piece.immutable object member) (stored object member)
          apply (readHead_safe codec).returns_bind
          intro current later moved _ seen
          rcases current with _ | ⟨bytes, now⟩
          · exact Prog.safe_fail_returns
          · rcases seen bytes now rfl with ⟨commits, manifest, observed, longer, _⟩
            have done : isPublished now publication.package = true →
                (Prog.ret () : StoreProg Unit).Safe (archiveWorld env backend faulty)
                  (archiveProtocol env accepts backend) (.publish publication.package gate)
                  (Prog.Returns (fun _ later => Published accepts later publication.package)) later :=
              fun ends => Prog.safe_ret_returns (fun final moved' _ => moved'.published (observed.published ends))
            rcases previous with _ | ⟨found, before⟩
            · dsimp only
              split
              · next ends => exact done ends
              · exact Prog.safe_fail_returns
            · dsimp only
              split
              · next ends => exact done ends
              · split
                · next unmoved =>
                    rcases ready' with ⟨extends_, commits', manifest', observed'⟩
                    have grows := observed'.grows observed.history (observed'.early.trans longer)
                    rcases observed'.head with ⟨parent', rfl⟩
                    rcases observed.head with ⟨parent, rfl⟩
                    apply ih
                    · intro object member
                      exact Kept.content moved (publication.piece.immutable object member)
                        (stored' object member)
                    · exact ⟨extends_.rebase grows unmoved.1, commits, manifest, observed⟩
                · exact Prog.safe_fail_returns

theorem checkTransition_none {package : Package} {first : BlockMeta}
    (checked : checkTransition package first none = .ok ()) :
    package.mode = .anchor ∧ first.number = 0 ∧ first.hash = package.segment.genesisHash ∧
      first.parentHash = Fixed.zero := by
  unfold checkTransition at checked
  cases mode : package.mode with
  | delta =>
      rw [mode] at checked
      cases checked
  | anchor =>
      rw [mode] at checked
      dsimp only at checked
      split at checked
      · next valid => exact ⟨rfl, valid⟩
      · cases checked

theorem checkTransition_some {package : Package} {first : BlockMeta} {head : Head}
    (checked : checkTransition package first (some head) = .ok ()) :
    head.genesis = package.segment.genesisHash ∧ checkedSucc head.number = some first.number ∧
      first.parentHash = head.hash := by
  unfold checkTransition at checked
  cases mode : package.mode with
  | anchor =>
      rw [mode] at checked
      cases checked
  | delta =>
      rw [mode] at checked
      dsimp only at checked
      split at checked
      · next valid => exact ⟨valid.1, valid.2.1, valid.2.2.2.2⟩
      · cases checked

theorem readHead_chainId {found : VersionedBytes} {head : Head} {commits : List (Commit Call)}
    {manifest : Manifest env accepts} (observed : Observed backend chainId found head commits manifest state) :
    head.chainId = chainId := by
  rcases observed.head with ⟨parent, rfl⟩
  exact observed.history.head.2.2

/-- A finished publication has its package in the chain. Only packages that pass the
lifecycle checks need to be acceptable; the others are never committed. -/
theorem publish_checked (codec : HeadsRoundTrip env) {package : Package} {gate : PublicationGate}
    (accepted : validateLifecycle env package = .ok () → accepts package) :
    (publish env package gate).Safe (archiveWorld env backend faulty)
      (archiveProtocol env accepts backend) (.publish package gate)
      (Prog.Returns (fun _ later => Published accepts later package)) state := by
  unfold publish
  cases front : package.segment.blocks.head? with
  | none => exact Prog.safe_fail_returns
  | some first =>
      cases back : package.segment.blocks.getLast? with
      | none => exact Prog.safe_fail_returns
      | some last =>
          apply Prog.safe_ofExcept_bind
          intro _ interval
          apply Prog.safe_ofExcept_bind
          intro _ _
          apply (readHead_safe codec).returns_bind
          intro previous read moves _ seen
          split
          · next ends =>
              rcases previous with _ | ⟨found, head⟩
              · cases ends
              · rcases seen found head rfl with ⟨commits, manifest, observed, _⟩
                exact Prog.safe_ret_returns (fun later moved _ => moved.published (observed.published ends))
          · apply Prog.safe_ofExcept_bind
            intro _ transition
            apply Prog.safe_guard
            intro room
            apply Prog.safe_ofExcept_bind
            intro _ validated
            apply Prog.safe_ofExcept_bind
            intro records recorded
            apply ((hosting accepts backend faulty (.publish package gate)).writeSorted_safe
              (fun built stored done _ _ _ object member => buildRun_immutable done object member)).returns_bind
            intro built later moved _ ⟨stored, build, durable⟩
            rcases exists_publication (accepted validated) front back interval recorded build with
              ⟨publication, rfl, rfl, rfl, run, rfl⟩
            rw [← run]
            apply publishLoop_safe codec durable
            rcases previous with _ | ⟨found, head⟩
            · exact checkTransition_none transition
            · have facts := checkTransition_some transition
              rcases seen found head rfl with ⟨commits, manifest, observed, _⟩
              refine ⟨⟨readHead_chainId observed, facts.1, facts.2.1, facts.2.2, ?_⟩, commits, manifest,
                observed.later moved⟩
              simpa using room

theorem publish_safe (codec : HeadsRoundTrip env) {package : Package} {gate : PublicationGate}
    (accepted : accepts package) :
    (publish env package gate).Safe (archiveWorld env backend faulty)
      (archiveProtocol env accepts backend) (.publish package gate)
      (Prog.Returns (fun _ later => Published accepts later package)) state :=
  publish_checked codec (fun _ => accepted)

/-! Compaction. -/

theorem total_levels {manifest other : Manifest env accepts}
    (same : manifest.levels.map (Option.map Piece.run) = other.levels.map (Option.map Piece.run)) :
    manifest.folds = other.folds := by
  have left := manifest.counts.total
  have right := other.counts.total
  rw [same, right] at left
  omega

/-- A fold planned on a manifest can be made on any later one with the same levels. -/
theorem Manifest.Grows.refold {old new : Manifest env accepts} (grows : old.Grows new)
    (same : new.levels.map (Option.map Piece.run) = old.levels.map (Option.map Piece.run))
    {planned : Plan (Piece env)} {merged : Piece env} (enough : l0Trigger ≤ old.l0.length)
    (made : plan Piece.weight old.levels = .ok planned)
    (merges : Merges (planned.inputs old.l0) planned.weight merged) :
    l0Trigger ≤ new.l0.length ∧ plan Piece.weight new.levels = .ok planned ∧
      Merges (planned.inputs new.l0) planned.weight merged := by
  have folds := total_levels same
  have levels := grows.levels folds.symm
  rcases grows.publications with ⟨rest, whole⟩
  have longer : new.l0 = old.l0 ++ rest.map Publication.piece := by
    unfold Manifest.l0 Manifest.pieces
    rw [← whole, List.map_append, folds]
    exact List.drop_append_of_le_length old.folds_le
  refine ⟨?_, levels ▸ made, ?_⟩
  · rw [longer, List.length_append]
    omega
  · rw [longer, Plan.inputs, List.take_append_of_le_length enough]
    exact merges

theorem compactLoop_safe (codec : HeadsRoundTrip env) {found : VersionedBytes} {head : Head}
    {commits : List (Commit Call)} {manifest : Manifest env accepts} {planned : Plan (Piece env)}
    {merged : Piece env} {attempts : Nat}
    (observed : Observed backend chainId found head commits manifest state)
    (enough : l0Trigger ≤ manifest.l0.length) (made : plan Piece.weight manifest.levels = .ok planned)
    (merges : Merges (planned.inputs manifest.l0) planned.weight merged)
    (stored : ∀ object ∈ merged.stored, Holds state object.1 object.2) :
    (compactLoop env chainId head ((planned.map Piece.run).commit merged.run) attempts).Safe
      (archiveWorld env backend faulty) (archiveProtocol env accepts backend) (.compactOnce chainId)
      (Prog.Returns (fun _ _ => True)) state := by
  induction attempts generalizing state with
  | zero => exact Prog.safe_fail_returns
  | succ attempts ih =>
      apply (readHead_safe codec).returns_bind
      intro read middle moves _ seen
      rcases read with _ | ⟨bytes, current⟩
      · exact Prog.safe_fail_returns
      · rcases seen bytes current rfl with ⟨commits', manifest', observed', _⟩
        apply Prog.safe_guard
        intro compatible
        rw [not_or, not_not] at compatible
        have stored' : ∀ later, Kept middle later → ∀ object ∈ merged.stored, Holds later object.1 object.2 :=
          fun later moved object member =>
            Kept.content (Kept.trans moves moved) (merged.immutable object member) (stored object member)
        have swapped : (swap env (some bytes) { current with
            l0 := current.l0.drop l0Trigger
            levels := (planned.map Piece.run).commit merged.run }).Safe
            (archiveWorld env backend faulty) (archiveProtocol env accepts backend)
            (.compactOnce chainId) (Prog.Returns (fun _ later => ∃ bytes,
              (⟨.compactOnce chainId, .head chainId, bytes⟩ : Commit Call) ∈ later.commits chainId))
            middle := by
          have chain := readHead_chainId observed'
          refine swap_safe codec observed' chain ?_
          intro later now moved history ⟨parent, same⟩
          subst same
          have grows := (observed.later (Kept.trans moves moved)).grows history
            (observed.later (Kept.trans moves moved)).early
          rcases observed.head with ⟨parent', rfl⟩
          rcases grows.refold compatible.1 enough made merges with ⟨enough', made', merges'⟩
          exact ⟨merged, _, .fold chainId planned merged enough' made' merges',
            fun parent => Manifest.head_fold enough' made' merges', stored' later moved⟩
        apply swapped.attempt_delivers.delivers_returns.returns_bind
        intro outcome later moved _ _
        cases outcome with
        | ok value => exact Prog.safe_ret_returns (fun _ _ _ => trivial)
        | error error => exact ih (observed.later (Kept.trans moves moved)) (stored' later moved)

theorem runInputs_pieces (pieces : List (Piece env)) :
    runInputs (pieces.map Piece.run) =
      .ok (pieces.map (fun piece => (piece.built.root, piece.built.rootBytes))) := by
  induction pieces with
  | nil => rfl
  | cons piece rest ih =>
      rw [List.map_cons, runInputs, piece.input, ok_bind, ih]
      rfl

theorem runsStored {pieces : List (Piece env)}
    (stored : ∀ piece ∈ pieces, ∀ object ∈ piece.stored, Holds state object.1 object.2) :
    List.Forall₂ (RunStored env.toPrimitives state)
      (pieces.map (fun piece => (piece.built.root, piece.built.rootBytes))) (pieces.map Piece.records) := by
  induction pieces with
  | nil => exact .nil
  | cons piece rest ih =>
      refine .cons (piece.runStored (stored piece List.mem_cons_self)) (ih ?_)
      intro other member
      exact stored other (List.mem_cons_of_mem _ member)

/-- The inputs of a fold are current pieces that follow one another. -/
theorem Manifest.inputs_tiled (manifest : Manifest env accepts) {planned : Plan (Piece env)}
    (made : plan Piece.weight manifest.levels = .ok planned) :
    (∀ piece ∈ planned.inputs manifest.l0, piece ∈ manifest.current) ∧
      ∃ first bound, Tiled first ((planned.inputs manifest.l0).map Piece.run) bound := by
  rcases manifest.folded.around made with ⟨older, splits, _⟩
  have whole := manifest.current_tiled
  unfold Manifest.current at whole ⊢
  rw [splits] at whole ⊢
  constructor
  · intro piece member
    exact List.mem_append_right _ (List.mem_append_left _ member)
  · rw [List.map_append, List.map_append] at whole
    rcases tiled_append.mp whole with ⟨first, _, rest⟩
    rcases tiled_append.mp rest with ⟨bound, inputs, _⟩
    exact ⟨first, bound, inputs⟩

theorem compactOnce_safe (codec : HeadsRoundTrip env) (lossless : env.toPrimitives.Lossless) :
    (compactOnce env chainId).Safe (archiveWorld env backend faulty)
      (archiveProtocol env accepts backend) (.compactOnce chainId) (Prog.Returns (fun _ _ => True)) state := by
  apply (readHead_safe codec).returns_bind
  intro read middle _ _ seen
  rcases read with _ | ⟨bytes, head⟩
  · exact Prog.safe_ret_returns (fun _ _ _ => trivial)
  · rcases seen bytes head rfl with ⟨commits, manifest, observed, _⟩
    dsimp only
    split
    · exact Prog.safe_ret_returns (fun _ _ _ => trivial)
    · next full =>
        rcases observed.head with ⟨parent, rfl⟩
        have enough : l0Trigger ≤ manifest.l0.length := by
          simpa [Manifest.head] using full
        have plans : plan Run.weight (manifest.head parent).levels =
            (plan Piece.weight manifest.levels).map (Plan.map Piece.run) := plan_map (fun _ => rfl) _
        apply Prog.safe_ofExcept_bind
        intro planned' plannedRuns
        replace plannedRuns : plan Run.weight (manifest.head parent).levels = .ok planned' := plannedRuns
        rw [plans] at plannedRuns
        cases made : plan Piece.weight manifest.levels with
        | error error =>
            rw [made] at plannedRuns
            cases plannedRuns
        | ok planned =>
            rw [made] at plannedRuns
            cases plannedRuns
            have inputs : (planned.map Piece.run).inputs (manifest.head parent).l0 =
                (planned.inputs manifest.l0).map Piece.run := Manifest.inputs_map _ _ _
            rcases manifest.inputs_tiled made with ⟨current, first, bound, tiled⟩
            have stored : ∀ later, Kept middle later → ∀ piece ∈ planned.inputs manifest.l0,
                ∀ object ∈ piece.stored, Holds later object.1 object.2 := fun later moved piece member =>
              (observed.later moved).history.stored piece (current piece member)
            have nonempty : planned.inputs manifest.l0 ≠ [] := by
              intro nothing
              have none := congrArg List.length (List.append_eq_nil_iff.mp nothing).2
              rw [List.length_take, Nat.min_eq_left enough] at none
              cases none
            rw [inputs]
            apply Prog.safe_guard
            intro _
            rw [runInputs_pieces]
            intro started moved inv start after stepped
            have idle := step_idle inv stepped (fun _ => rfl) trivial
            refine ⟨idle.1, idle.2, ?_⟩
            have reached := Kept.trans moved idle.2
            apply ((hosting accepts backend faulty (.compactOnce chainId)).mergeRuns_safe lossless
              (runsStored (stored after reached)) (interleaves_sortRecords tiled)
              (fun built puts done _ _ _ object member => buildRun_immutable done object member)).returns_bind
            rintro built later moved' _ ⟨puts, build, durable⟩ finish moved'' inv' finished after' stepped'
            have idle' := step_idle inv' stepped' (fun _ => rfl) trivial
            refine ⟨idle'.1, idle'.2, ?_⟩
            apply Prog.safe_guard
            intro _
            rcases exists_merges tiled nonempty planned.weight build with ⟨merged, merges, rfl, rfl⟩
            have whole := Kept.trans moved'' idle'.2
            have run : foldedRun ((planned.inputs manifest.l0).map Piece.run) (planned.map Piece.run).weight
                merged.built = merged.run := merges.run.symm
            rw [run]
            apply compactLoop_safe codec (observed.later (Kept.trans reached (Kept.trans moved' whole)))
              enough made merges
            intro object member
            exact Kept.content whole (merged.immutable object member) (durable object member)

end

end Fossil

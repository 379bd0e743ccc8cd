import Fossil.History
import Fossil.MergeRuns

/-! The protocol the calls of an archive keep.

The invariant ties the store to the histories of its chains; the order says what
no call ever undoes: immutable objects stay, the commits grow, and a version of a
head names one content. Publication and compaction are proved against both. -/

namespace Fossil

section

variable {Owner : Type}

/-- The commits of a chain's head. -/
def System.commits (system : System Owner) (chainId : UInt64) : List (Commit Owner) :=
  system.log.filter (fun commit => commit.key = .head chainId)

/-- What a store never takes back. -/
structure Kept (state later : System Owner) : Prop where
  content : ∀ {key : Key} {bytes : Bytes}, key.immutable → state.content key = some bytes →
    later.content key = some bytes
  log : state.log <+: later.log
  versions : state.nextVersion ≤ later.nextVersion
  heads : ∀ {chainId : UInt64} {entry : Entry}, later.lookup (.head chainId) = some entry →
    entry.version ≤ state.nextVersion → state.lookup (.head chainId) = some entry
  fixed : ∀ chainId, later.commits chainId = state.commits chainId →
    later.lookup (.head chainId) = state.lookup (.head chainId)

theorem Kept.refl (state : System Owner) : Kept state state :=
  ⟨fun _ found => found, List.prefix_rfl, Nat.le_refl _, fun found _ => found, fun _ _ => rfl⟩

theorem Kept.commits {state later : System Owner} (kept : Kept state later) (chainId : UInt64) :
    state.commits chainId <+: later.commits chainId :=
  kept.log.filter _

theorem Kept.trans {first second third : System Owner} (one : Kept first second)
    (two : Kept second third) : Kept first third := by
  refine ⟨fun immutable found => two.content immutable (one.content immutable found),
    one.log.trans two.log, one.versions.trans two.versions,
    fun found old => one.heads (two.heads found (old.trans one.versions)) old, ?_⟩
  intro chainId same
  have early := one.commits chainId
  have late := two.commits chainId
  have between : second.commits chainId = first.commits chainId := by
    rw [same] at late
    exact (early.eq_of_length_le late.length_le).symm
  rw [two.fixed chainId (same.trans between.symm), one.fixed chainId between]

theorem System.lookup_insert (backend : Backend) (state : System Owner) (key other : Key) (bytes : Bytes) :
    (state.insert backend key bytes).lookup other =
      if other = key then some ⟨bytes, state.nextVersion + 1, state.stamp backend⟩
      else state.lookup other := by
  unfold System.lookup System.insert
  split
  · next same =>
      rw [same]
      exact AList.lookup_insert _
  · next different => exact AList.lookup_insert_ne different

theorem System.content_insert (backend : Backend) (state : System Owner) (key other : Key) (bytes : Bytes) :
    (state.insert backend key bytes).content other =
      if other = key then some bytes else state.content other := by
  unfold System.content
  rw [System.lookup_insert]
  split <;> rfl

/-- The same object under a new date. -/
def System.restamp (state : System Owner) (key : Key) (entry : Entry) : System Owner :=
  { state with entries := state.entries.insert key { entry with modified := state.clock } }

theorem System.lookup_restamp (state : System Owner) (key other : Key) (entry : Entry) :
    (state.restamp key entry).lookup other =
      if other = key then some { entry with modified := state.clock } else state.lookup other := by
  unfold System.lookup System.restamp
  split
  · next same =>
      rw [same]
      exact AList.lookup_insert _
  · next different => exact AList.lookup_insert_ne different

theorem System.content_restamp {state : System Owner} {key : Key} {entry : Entry}
    (found : state.lookup key = some entry) (other : Key) :
    (state.restamp key entry).content other = state.content other := by
  unfold System.content
  rw [System.lookup_restamp]
  split
  · next same =>
      rw [same, found]
      rfl
  · rfl

/-- A create-only write changes nothing, adds the object or re-stamps it. -/
theorem System.putImmutable_cases (backend : Backend) (state : System Owner) (key : Key) (bytes : Bytes) :
    ((state.putImmutable backend key bytes).2 = state ∧
      ((state.putImmutable backend key bytes).1 = .ok () → state.content key = some bytes)) ∨
    (state.lookup key = none ∧
      (state.putImmutable backend key bytes).2 = state.insert backend key bytes) ∨
    ∃ entry, state.lookup key = some entry ∧ entry.bytes = bytes ∧
      (state.putImmutable backend key bytes).2 = state.restamp key entry := by
  unfold System.putImmutable
  cases found : state.lookup key with
  | none => exact .inr (.inl ⟨rfl, rfl⟩)
  | some entry =>
      dsimp only
      split
      · exact .inl ⟨rfl, nofun⟩
      · split
        · exact .inl ⟨rfl, nofun⟩
        · next same =>
            split
            · exact .inr (.inr ⟨entry, rfl, not_not.mp same, rfl⟩)
            · refine .inl ⟨rfl, fun _ => ?_⟩
              rw [System.content, found, ← not_not.mp same]
              rfl

/-- Committing bytes to a head. -/
def System.commit (backend : Backend) (owner : Owner) (state : System Owner) (chainId : UInt64)
    (bytes : Bytes) : System Owner :=
  { state.insert backend (.head chainId) bytes with
    log := state.log ++ [⟨owner, .head chainId, bytes⟩] }

theorem Key.head_ne_of_immutable {key : Key} (immutable : key.immutable) (chainId : UInt64) :
    Key.head chainId ≠ key := by
  rintro rfl
  cases immutable

theorem Kept.insert (backend : Backend) {state : System Owner} {key : Key} (bytes : Bytes)
    (absent : state.lookup key = none) (immutable : key.immutable) :
    Kept state (state.insert backend key bytes) := by
  have heads : ∀ chainId, (state.insert backend key bytes).lookup (.head chainId) =
      state.lookup (.head chainId) := by
    intro chainId
    rw [System.lookup_insert, if_neg (Key.head_ne_of_immutable immutable chainId)]
  refine ⟨?_, List.prefix_rfl, Nat.le_succ _, ?_, fun chainId _ => heads chainId⟩
  · intro other held _ found
    rw [System.content_insert]
    split
    · next same =>
        rw [same, System.content, absent] at found
        cases found
    · exact found
  · intro chainId entry found _
    rw [heads] at found
    exact found

theorem Kept.restamp {state : System Owner} {key : Key} {entry : Entry}
    (found : state.lookup key = some entry) (immutable : key.immutable) :
    Kept state (state.restamp key entry) := by
  have heads : ∀ chainId, (state.restamp key entry).lookup (.head chainId) =
      state.lookup (.head chainId) := by
    intro chainId
    rw [System.lookup_restamp, if_neg (Key.head_ne_of_immutable immutable chainId)]
  refine ⟨?_, List.prefix_rfl, Nat.le_refl _, ?_, fun chainId _ => heads chainId⟩
  · intro other held _ present
    rw [System.content_restamp found]
    exact present
  · intro chainId other present _
    rw [heads] at present
    exact present

/-- A create-only write keeps what is stored, and what it acknowledges is stored. -/
theorem System.putImmutable_kept (backend : Backend) (state : System Owner) {key : Key} (bytes : Bytes)
    (immutable : key.immutable) :
    Kept state (state.putImmutable backend key bytes).2 ∧
      ((state.putImmutable backend key bytes).1 = .ok () →
        (state.putImmutable backend key bytes).2.content key = some bytes) := by
  rcases state.putImmutable_cases backend key bytes with
    ⟨same, present⟩ | ⟨absent, inserted⟩ | ⟨entry, found, same, stamped⟩
  · rw [same]
    exact ⟨Kept.refl state, present⟩
  · rw [inserted]
    refine ⟨Kept.insert backend bytes absent immutable, fun _ => ?_⟩
    rw [System.content_insert, if_pos rfl]
  · rw [stamped]
    refine ⟨Kept.restamp found immutable, fun _ => ?_⟩
    rw [System.content_restamp found, System.content, found, ← same]
    rfl

/-- What a bounded read returns is stored. -/
theorem System.getBounded_eq_ok {backend : Backend} {state : System Owner} {key : Key} {maximum : Nat}
    {bytes : Bytes} (read : state.getBounded backend key maximum = .ok bytes) :
    state.content key = some bytes := by
  unfold System.getBounded at read
  unfold System.content
  split at read
  · cases read
  · next entry found =>
      split at read
      · cases backend <;> cases read
      · rw [found, ← Except.ok.inj read]
        rfl

theorem commits_commit (backend : Backend) (owner : Owner) (state : System Owner)
    (chainId other : UInt64) (bytes : Bytes) :
    (state.commit backend owner chainId bytes).commits other =
      if other = chainId then state.commits other ++ [⟨owner, .head chainId, bytes⟩]
      else state.commits other := by
  unfold System.commits System.commit
  rw [List.filter_append]
  split
  · next same => simp [same]
  · next different =>
      have unrelated : ¬ chainId = other := fun same => different same.symm
      simp [unrelated]

theorem System.lookup_commit (backend : Backend) (owner : Owner) (state : System Owner)
    (chainId : UInt64) (bytes : Bytes) (key : Key) :
    (state.commit backend owner chainId bytes).lookup key =
      if key = .head chainId then some ⟨bytes, state.nextVersion + 1, state.stamp backend⟩
      else state.lookup key :=
  System.lookup_insert backend state (.head chainId) key bytes

theorem System.content_commit (backend : Backend) (owner : Owner) (state : System Owner)
    (chainId : UInt64) (bytes : Bytes) (key : Key) :
    (state.commit backend owner chainId bytes).content key =
      if key = .head chainId then some bytes else state.content key :=
  System.content_insert backend state (.head chainId) key bytes

theorem Kept.commit (backend : Backend) (owner : Owner) (state : System Owner) (chainId : UInt64)
    (bytes : Bytes) : Kept state (state.commit backend owner chainId bytes) := by
  refine ⟨?_, List.prefix_append _ _, Nat.le_succ _, ?_, ?_⟩
  · intro key held immutable found
    rw [System.content_commit, if_neg (Key.head_ne_of_immutable immutable chainId).symm]
    exact found
  · intro other entry found old
    rw [System.lookup_commit] at found
    split at found
    · cases found
      exact absurd old (Nat.not_succ_le_self _)
    · exact found
  · intro other same
    rw [commits_commit] at same
    rw [System.lookup_commit]
    split at same
    · have longer := congrArg List.length same
      rw [List.length_append, List.length_singleton] at longer
      omega
    · next different => rw [if_neg (fun heads => different (Key.head.inj heads))]

/-- No two different heads in the log have one digest. The filesystem store tells
heads apart by nothing else. -/
def System.HeadsDistinct (env : Primitives) (backend : Backend) (system : System Owner) : Prop :=
  backend = .filesystem → ∀ first ∈ system.log, ∀ second ∈ system.log,
    env.sha256 first.bytes = env.sha256 second.bytes → first.bytes = second.bytes

theorem System.HeadsDistinct.earlier {env : Primitives} {backend : Backend} {state later : System Owner}
    (distinct : later.HeadsDistinct env backend) (log : state.log <+: later.log) :
    state.HeadsDistinct env backend :=
  fun digests first one second two => distinct digests first (log.subset one) second (log.subset two)

/-- A head update expects a committed head, and succeeds exactly when the head still
has the bytes it was read with. -/
def Undisturbed (env : Primitives) (backend : Backend) (owner : Owner) : StoreOp → System Owner → Prop
  | .compareAndSwap (.head chainId) expected bytes, system =>
      (∀ found ∈ expected, ∃ commit ∈ system.commits chainId, commit.bytes = found.bytes) ∧
      ((system.compareAndSwap env backend owner (.head chainId) expected bytes).1 = .ok () ↔
        system.content (.head chainId) = expected.map VersionedBytes.bytes)
  | _, _ => True

/-- No operation forgets a commit. -/
theorem System.log_step {env : Primitives} {backend : Backend} {faulty : StoreOp → Prop} {owner : Owner}
    {op : StoreOp} {state after : System Owner} {reply : op.Resp}
    (stepped : (System.world env backend faulty).step owner op state reply after) :
    state.log <+: after.log := by
  have performed : ∀ clock, state.log <+: ((state.tick clock).perform env backend owner op).2.log := by
    intro clock
    cases op with
    | putImmutable key bytes =>
        show _ <+: ((state.tick clock).putImmutable backend key bytes).2.log
        rcases (state.tick clock).putImmutable_cases backend key bytes with
          ⟨same, _⟩ | ⟨_, inserted⟩ | ⟨entry, _, _, stamped⟩
        · rw [same]
          exact List.prefix_rfl
        · rw [inserted]
          exact List.prefix_rfl
        · rw [stamped]
          exact List.prefix_rfl
    | compareAndSwap key expected bytes =>
        show _ <+: ((state.tick clock).compareAndSwap env backend owner key expected bytes).2.log
        unfold System.compareAndSwap
        dsimp only
        split
        · exact List.prefix_rfl
        · split
          · exact List.prefix_append _ _
          · exact List.prefix_rfl
    | _ => exact List.prefix_rfl
  rcases stepped with ⟨clock, _, outcome⟩
  cases outcome with
  | done => exact performed clock
  | reordered => exact List.prefix_rfl
  | chosen => exact List.prefix_rfl
  | evicted => exact List.prefix_rfl
  | lost => exact List.prefix_rfl
  | unacknowledged => exact performed clock

end

/-! The invariant. -/

/-- The bytes a store holds under a key. -/
def Holds (state : ArchiveSystem) (key : Key) (bytes : Bytes) : Prop := state.content key = some bytes

section

variable (env : Externals) (accepts : Package → Prop) (backend : Backend)

/-- Every chain's head is the last commit of a history whose objects are stored;
memo entries are decoded shards of the store. -/
structure Inv (state : ArchiveSystem) : Prop where
  versions : ∀ {key : Key} {entry : Entry}, state.lookup key = some entry →
    entry.version ≤ state.nextVersion
  heads : ∀ chainId, state.content (.head chainId) =
    (state.commits chainId).getLast?.map Commit.bytes
  history : ∀ chainId, state.commits chainId ≠ [] → ∃ manifest bytes,
    History env accepts chainId (Holds state) (state.commits chainId) manifest bytes
  memo : ∀ {cache : Nat} {path : Key} {shard : Shard}, state.memo cache path = some shard →
    ∃ run shards kind index bytes, path = .summary run shards kind index ∧ Holds state path bytes ∧
      Shard.decode env.toPrimitives run kind index shards bytes = .ok shard
  distinct : state.HeadsDistinct env.toPrimitives backend

def archiveProtocol : Protocol ArchiveSystem := ⟨Inv env accepts backend, Kept, Kept.refl, Kept.trans⟩

/-- The store as the archive uses it: with heads that digests tell apart, and with
head updates that succeed exactly when nothing was committed since the read. -/
def archiveWorld (faulty : StoreOp → Prop) : World StoreOp StoreOp.Resp Call ArchiveSystem :=
  ((System.world env.toPrimitives backend faulty).within
    (System.HeadsDistinct env.toPrimitives backend)).guarded (Undisturbed env.toPrimitives backend)

end

section

variable {env : Externals} {accepts : Package → Prop} {backend : Backend}

theorem inv_empty : Inv env accepts backend System.empty := by
  refine ⟨?_, fun _ => rfl, fun _ nonempty => absurd rfl nonempty, ?_, ?_⟩
  · intro key entry found
    cases found
  · intro cache path shard found
    cases found
  · intro _ first member
    cases member

/-- A state with a head that no commit explains. -/
theorem exists_broken : ∃ broken, ¬ Inv env accepts backend broken := by
  refine ⟨System.empty.insert backend (.head 0) [], ?_⟩
  intro inv
  have heads := inv.heads 0
  rw [System.content_insert, if_pos rfl] at heads
  cases heads

theorem Inv.tick {state : ArchiveSystem} (inv : Inv env accepts backend state) (clock : Time) :
    Inv env accepts backend (state.tick clock) :=
  ⟨inv.versions, inv.heads, inv.history, inv.memo, inv.distinct⟩

theorem Kept.tick {Owner : Type} (state : System Owner) (clock : Time) : Kept state (state.tick clock) :=
  ⟨fun _ found => found, List.prefix_rfl, Nat.le_refl _, fun found _ => found, fun _ _ => rfl⟩

/-- The invariant only depends on what is stored, the commits and the memo. -/
theorem Inv.of_kept {state after : ArchiveSystem} (inv : Inv env accepts backend state)
    (kept : Kept state after) (log : after.log = state.log) (memo : after.memo = state.memo)
    (versions : ∀ {key : Key} {entry : Entry}, after.lookup key = some entry →
      entry.version ≤ after.nextVersion) : Inv env accepts backend after := by
  have commits : ∀ chainId, after.commits chainId = state.commits chainId := by
    intro chainId
    unfold System.commits
    rw [log]
  have more : ∀ key held, key.immutable → Holds state key held → Holds after key held :=
    fun _ _ immutable found => kept.content immutable found
  refine ⟨versions, ?_, ?_, ?_, inv.distinct.earlier (log ▸ List.prefix_rfl)⟩
  · intro chainId
    rw [System.content, kept.fixed chainId (commits chainId), commits]
    exact inv.heads chainId
  · intro chainId nonempty
    rw [commits] at nonempty ⊢
    rcases inv.history chainId nonempty with ⟨manifest, last, history⟩
    exact ⟨manifest, last, history.mono more⟩
  · intro cache path shard found
    rw [memo] at found
    rcases inv.memo found with ⟨run, shards, kind, index, stored, rfl, here, decoded⟩
    exact ⟨run, shards, kind, index, stored, rfl, more _ _ rfl here, decoded⟩

theorem Inv.insert {state : ArchiveSystem} (inv : Inv env accepts backend state) {key : Key}
    {bytes : Bytes} (absent : state.lookup key = none) (immutable : key.immutable) :
    Inv env accepts backend (state.insert backend key bytes) := by
  apply inv.of_kept (Kept.insert backend bytes absent immutable) rfl rfl
  intro other entry found
  rw [System.lookup_insert] at found
  split at found
  · cases found
    exact Nat.le_refl _
  · exact (inv.versions found).trans (Nat.le_succ _)

theorem Inv.restamp {state : ArchiveSystem} (inv : Inv env accepts backend state) {key : Key}
    {entry : Entry} (found : state.lookup key = some entry) (immutable : key.immutable) :
    Inv env accepts backend (state.restamp key entry) := by
  apply inv.of_kept (Kept.restamp found immutable) rfl rfl
  intro other present here
  rw [System.lookup_restamp] at here
  split at here
  · cases here
    have old := inv.versions found
    exact old
  · exact inv.versions here

theorem Inv.commit {state : ArchiveSystem} (inv : Inv env accepts backend state) {owner : Call}
    {chainId : UInt64} {bytes : Bytes} {manifest : Manifest env accepts}
    (history : History env accepts chainId (Holds state)
      (state.commits chainId ++ [⟨owner, .head chainId, bytes⟩]) manifest bytes)
    (distinct : (state.commit backend owner chainId bytes).HeadsDistinct env.toPrimitives backend) :
    Inv env accepts backend (state.commit backend owner chainId bytes) := by
  have kept := Kept.commit backend owner state chainId bytes
  have more : ∀ key held, key.immutable → Holds state key held →
      Holds (state.commit backend owner chainId bytes) key held := fun _ _ immutable found =>
    kept.content immutable found
  refine ⟨?_, ?_, ?_, ?_, distinct⟩
  · intro key entry found
    rw [System.lookup_commit] at found
    split at found
    · cases found
      exact Nat.le_refl _
    · exact (inv.versions found).trans (Nat.le_succ _)
  · intro other
    rw [commits_commit, System.content_commit]
    by_cases same : other = chainId
    · subst same
      simp
    · rw [if_neg (fun heads => same (Key.head.inj heads)), if_neg same]
      exact inv.heads other
  · intro other nonempty
    rw [commits_commit] at nonempty ⊢
    by_cases same : other = chainId
    · subst same
      rw [if_pos rfl]
      exact ⟨manifest, bytes, history.mono more⟩
    · rw [if_neg same] at nonempty ⊢
      rcases inv.history other nonempty with ⟨before, last, old⟩
      exact ⟨before, last, old.mono more⟩
  · intro cache path shard found
    rcases inv.memo found with ⟨run, shards, kind, index, stored, rfl, here, decoded⟩
    exact ⟨run, shards, kind, index, stored, rfl, more _ _ rfl here, decoded⟩

/-! What an operation can do. -/

variable {faulty : StoreOp → Prop} {owner : Call} {state after : ArchiveSystem}

/-- The effect of an operation is that of carrying it out, or none. -/
theorem step_effect {op : StoreOp} {reply : op.Resp}
    (stepped : (System.world env.toPrimitives backend faulty).step owner op state reply after) :
    ∃ clock, after = state.tick clock ∨
      after = ((state.tick clock).perform env.toPrimitives backend owner op).2 := by
  rcases stepped with ⟨clock, _, outcome⟩
  refine ⟨clock, ?_⟩
  cases outcome with
  | done => exact .inr rfl
  | reordered => exact .inl rfl
  | chosen => exact .inl rfl
  | evicted => exact .inl rfl
  | lost => exact .inl rfl
  | unacknowledged => exact .inr rfl

/-- Operations that only look change nothing but the clock. -/
theorem step_idle {op : StoreOp} {reply : op.Resp} (inv : Inv env accepts backend state)
    (stepped : (archiveWorld env backend faulty).step owner op state reply after)
    (idle : ∀ system : ArchiveSystem, (system.perform env.toPrimitives backend owner op).2 = system)
    (permitted : Undisturbed env.toPrimitives backend owner op state) :
    Inv env accepts backend after ∧ Kept state after := by
  rcases step_effect (stepped permitted).1 with ⟨clock, rfl | effect⟩
  · exact ⟨inv.tick clock, Kept.tick state clock⟩
  · rw [idle] at effect
    rw [effect]
    exact ⟨inv.tick clock, Kept.tick state clock⟩

theorem step_put {key : Key} {bytes : Bytes} {reply : Result Unit} (inv : Inv env accepts backend state)
    (immutable : key.immutable)
    (stepped : (archiveWorld env backend faulty).step owner (.putImmutable key bytes) state reply after) :
    Inv env accepts backend after ∧ Kept state after ∧ (reply = .ok () → Holds after key bytes) := by
  have unchanged : ∀ clock, Inv env accepts backend (state.tick clock) ∧ Kept state (state.tick clock) :=
    fun clock => ⟨inv.tick clock, Kept.tick state clock⟩
  have performed : ∀ clock,
      Inv env accepts backend ((state.tick clock).putImmutable backend key bytes).2 ∧
        Kept state ((state.tick clock).putImmutable backend key bytes).2 ∧
        (((state.tick clock).putImmutable backend key bytes).1 = .ok () →
          Holds ((state.tick clock).putImmutable backend key bytes).2 key bytes) := by
    intro clock
    rcases (state.tick clock).putImmutable_kept backend bytes immutable with ⟨kept, written⟩
    refine ⟨?_, (Kept.tick state clock).trans kept, written⟩
    rcases (state.tick clock).putImmutable_cases backend key bytes with
      ⟨same, _⟩ | ⟨absent, inserted⟩ | ⟨entry, found, _, stamped⟩
    · rw [same]
      exact inv.tick clock
    · rw [inserted]
      exact (inv.tick clock).insert absent immutable
    · rw [stamped]
      exact (inv.tick clock).restamp found immutable
  rcases (stepped trivial).1 with ⟨clock, _, outcome⟩
  cases outcome with
  | done => exact performed clock
  | lost _ _ _ failed =>
      rcases failed with ⟨error, rfl⟩
      exact ⟨(unchanged clock).1, (unchanged clock).2, nofun⟩
  | unacknowledged _ _ _ failed =>
      rcases failed with ⟨error, rfl⟩
      exact ⟨(performed clock).1, (performed clock).2.1, nofun⟩

theorem step_get {key : Key} {maximum : Nat} {reply : Result Bytes} (inv : Inv env accepts backend state)
    (stepped : (archiveWorld env backend faulty).step owner (.getBounded key maximum) state reply after) :
    Inv env accepts backend after ∧ Kept state after ∧
      ∀ bytes, reply = .ok bytes → Holds after key bytes := by
  rcases step_idle inv stepped (fun _ => rfl) trivial with ⟨kept, moves⟩
  refine ⟨kept, moves, ?_⟩
  intro bytes done
  subst done
  rcases (stepped trivial).1 with ⟨clock, _, outcome⟩
  generalize same : (Except.ok bytes : Result Bytes) = reply at outcome
  cases outcome with
  | done => exact @System.getBounded_eq_ok _ backend (state.tick clock) _ maximum _ same.symm
  | lost _ _ _ failed =>
      rcases failed with ⟨error, rfl⟩
      cases same
  | unacknowledged _ _ _ failed =>
      rcases failed with ⟨error, rfl⟩
      cases same

theorem step_read {key : Key} {maximum : Nat} {reply : Result (Option VersionedBytes)}
    (stepped : (archiveWorld env backend faulty).step owner (.readMutableBounded key maximum) state
      reply after) :
    ∀ found, reply = .ok (some found) → ∃ entry, state.lookup key = some entry ∧
      found = ⟨entry.bytes, System.versionOf env.toPrimitives backend entry⟩ := by
  intro found done
  subst done
  rcases (stepped trivial).1 with ⟨clock, _, outcome⟩
  generalize same : (Except.ok (some found) : Result (Option VersionedBytes)) = reply at outcome
  cases outcome with
  | done =>
      replace same : Except.ok (some found) =
        (state.tick clock).readMutableBounded env.toPrimitives backend key maximum := same
      unfold System.readMutableBounded at same
      split at same
      · cases same
      · next entry present =>
          split at same
          · cases backend <;> cases same
          · exact ⟨entry, present, Option.some.inj (Except.ok.inj same)⟩
  | lost _ _ _ failed =>
      rcases failed with ⟨error, rfl⟩
      cases same
  | unacknowledged _ _ _ failed =>
      rcases failed with ⟨error, rfl⟩
      cases same

/-- A memo entry that is found was put there. -/
theorem step_shardsGet {cache : Nat} {path : Key} {reply : Option Shard}
    (stepped : (archiveWorld env backend faulty).step owner (.shardsGet cache path) state reply after) :
    ∀ shard, reply = some shard → state.memo cache path = some shard := by
  intro shard found
  rcases (stepped trivial).1 with ⟨clock, _, outcome⟩
  cases outcome with
  | done => exact found
  | evicted => cases found
  | lost _ _ _ failed => cases failed
  | unacknowledged _ _ _ failed => cases failed

theorem step_shardsNew {reply : Nat} (inv : Inv env accepts backend state)
    (stepped : (archiveWorld env backend faulty).step owner .shardsNew state reply after) :
    Inv env accepts backend after ∧ Kept state after := by
  rcases step_effect (stepped trivial).1 with ⟨clock, rfl | rfl⟩
  · exact ⟨inv.tick clock, Kept.tick state clock⟩
  · exact ⟨⟨inv.versions, inv.heads, inv.history, inv.memo, inv.distinct⟩,
      ⟨fun _ found => found, List.prefix_rfl, Nat.le_refl _, fun found _ => found, fun _ _ => rfl⟩⟩

theorem step_shardsInsert {cache : Nat} {run : Hash32} {shards : UInt32} {kind : ShardKind}
    {index : UInt32} {bytes : Bytes} {shard : Shard} {reply : Unit} (inv : Inv env accepts backend state)
    (stored : Holds state (.summary run shards kind index) bytes)
    (decoded : Shard.decode env.toPrimitives run kind index shards bytes = .ok shard)
    (stepped : (archiveWorld env backend faulty).step owner
      (.shardsInsert cache (.summary run shards kind index) shard) state reply after) :
    Inv env accepts backend after ∧ Kept state after := by
  rcases step_effect (stepped trivial).1 with ⟨clock, rfl | rfl⟩
  · exact ⟨inv.tick clock, Kept.tick state clock⟩
  · refine ⟨⟨inv.versions, inv.heads, inv.history, ?_, inv.distinct⟩,
      ⟨fun _ found => found, List.prefix_rfl, Nat.le_refl _, fun found _ => found, fun _ _ => rfl⟩⟩
    intro cache' path' shard' found
    by_cases here : cache' = cache ∧ path' = .summary run shards kind index
    · rcases here with ⟨rfl, rfl⟩
      have same : some shard = some shard' := by
        rw [← found]
        simp [System.perform]
      cases same
      exact ⟨run, shards, kind, index, bytes, rfl, stored, decoded⟩
    · suffices old : state.memo cache' path' = some shard' from inv.memo old
      rw [← found]
      by_cases sameCache : cache' = cache
      · have otherPath : path' ≠ .summary run shards kind index := fun same => here ⟨sameCache, same⟩
        subst sameCache
        simp [System.perform, System.tick, Function.update_of_ne otherPath]
      · simp [System.perform, System.tick, Function.update_of_ne sameCache]

/-- What a head update does when it is carried out. -/
theorem System.compareAndSwap_cases {Owner : Type} (env : Primitives) (backend : Backend) (owner : Owner)
    (state : System Owner) (chainId : UInt64) (expected : Option VersionedBytes) (bytes : Bytes) :
    ((state.compareAndSwap env backend owner (.head chainId) expected bytes).1 ≠ .ok () ∧
      (state.compareAndSwap env backend owner (.head chainId) expected bytes).2 = state) ∨
    ((state.compareAndSwap env backend owner (.head chainId) expected bytes).1 = .ok () ∧
      state.matching env backend (.head chainId) expected = true ∧
      (state.compareAndSwap env backend owner (.head chainId) expected bytes).2 =
        state.commit backend owner chainId bytes) := by
  unfold System.compareAndSwap
  dsimp only
  split
  · exact .inl ⟨nofun, rfl⟩
  · split
    · next matched => exact .inr ⟨rfl, matched, rfl⟩
    · exact .inl ⟨nofun, rfl⟩

theorem System.compareAndSwap_tick {Owner : Type} (env : Primitives) (backend : Backend) (owner : Owner)
    (state : System Owner) (clock : Time) (key : Key) (expected : Option VersionedBytes) (bytes : Bytes) :
    ((state.tick clock).compareAndSwap env backend owner key expected bytes).1 =
      (state.compareAndSwap env backend owner key expected bytes).1 := by
  unfold System.compareAndSwap
  simp only [apply_ite Prod.fst]
  rfl

/-- A head update commits, or leaves the store as it was. -/
theorem step_swap {chainId : UInt64} {expected : Option VersionedBytes} {bytes : Bytes}
    {reply : Result Unit}
    (permitted : Undisturbed env.toPrimitives backend owner
      (.compareAndSwap (.head chainId) expected bytes) state)
    (stepped : (archiveWorld env backend faulty).step owner
      (.compareAndSwap (.head chainId) expected bytes) state reply after) :
    ∃ clock, (after = state.tick clock ∧ reply ≠ .ok ()) ∨
      (state.content (.head chainId) = expected.map VersionedBytes.bytes ∧
        after = (state.tick clock).commit backend owner chainId bytes ∧
        after.HeadsDistinct env.toPrimitives backend) := by
  rcases stepped permitted with ⟨⟨clock, _, outcome⟩, distinct⟩
  refine ⟨clock, ?_⟩
  have performed := System.compareAndSwap_cases env.toPrimitives backend owner (state.tick clock) chainId
    expected bytes
  have ticked : ((state.tick clock).compareAndSwap env.toPrimitives backend owner (.head chainId)
      expected bytes).1 = .ok () → state.content (.head chainId) = expected.map VersionedBytes.bytes := by
    intro done
    rw [System.compareAndSwap_tick] at done
    exact permitted.2.mp done
  cases outcome with
  | done =>
      rcases performed with ⟨failed, same⟩ | ⟨done, _, committed⟩
      · exact .inl ⟨same, failed⟩
      · exact .inr ⟨ticked done, committed, distinct⟩
  | lost _ _ _ failed =>
      rcases failed with ⟨error, rfl⟩
      exact .inl ⟨rfl, nofun⟩
  | unacknowledged _ _ _ failed =>
      rcases failed with ⟨error, rfl⟩
      rcases performed with ⟨_, same⟩ | ⟨done, _, committed⟩
      · exact .inl ⟨same, nofun⟩
      · exact .inr ⟨ticked done, committed, distinct⟩

variable (accepts) in
/-- The archive's protocol is one that runs can be written and merged under. -/
theorem hosting (backend : Backend) (faulty : StoreOp → Prop) (owner : Call) :
    Hosting env.toPrimitives (archiveWorld env backend faulty) (archiveProtocol env accepts backend)
      owner (fun _ key _ => key.immutable = true) where
  stays moves immutable found := Kept.content moves immutable found
  mayStay _ allowed := allowed
  object _ _ _ := rfl
  written inv allowed stepped := step_put inv allowed stepped
  read inv stepped := step_get inv stepped
  chosen inv stepped := step_idle inv stepped (fun _ => rfl) trivial

end

end Fossil

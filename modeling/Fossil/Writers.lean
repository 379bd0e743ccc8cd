import Fossil.Publishing
import Fossil.Live

/-! Publishers and compactors on one store.

Along every schedule of publications and compactions, with operations that fail
and calls that are abandoned at any point, the store keeps the invariant, and what
a call does next is something the protocol permits. -/

namespace Fossil

/-- Publications of accepted packages and compactions; nothing else runs. -/
def Writing (accepts : Package → Prop) (_ : ArchivePool) : Call → Prop
  | .publish package _ => accepts package
  | .compactOnce _ => True
  | _ => False

/-- What a finished writer promises: a publication has its package in the chain. -/
def Promises (accepts : Package → Prop) : (call : Call) → Except Error call.Out → ArchiveSystem → Prop
  | .publish package _, outcome, state => outcome = .ok () → accepts package ∧ Published accepts state package
  | _, _, _ => True

section

variable {env : Externals} {accepts : Package → Prop} {backend : Backend} {faulty : StoreOp → Prop}
  {enabled : ArchivePool → Call → Prop} {pool : ArchivePool}

/-- Carrying an operation out at once is a step of the store. -/
theorem System.perform_step {Owner : Type} {env : Primitives} {backend : Backend} {faulty : StoreOp → Prop}
    (owner : Owner) (state : System Owner) (op : StoreOp) :
    (System.world env backend faulty).step owner op state (state.perform env backend owner op).1
      (state.perform env backend owner op).2 :=
  ⟨state.clock, Nat.le_refl _, .done op⟩

/-- With heads that digests tell apart, a schedule on the store is one of the archive. -/
theorem reachable_archive
    (reached : Pool.Reachable (System.world env.toPrimitives backend faulty) (Call.body env) enabled
      System.empty pool)
    (distinct : pool.state.HeadsDistinct env.toPrimitives backend) :
    Pool.Reachable (archiveWorld env backend faulty) (Call.body env) enabled System.empty pool := by
  have inside := reached.within (fun _ _ _ _ _ stepped ends => ends.earlier (System.log_step stepped))
    distinct
  exact inside.mono (fun _ _ _ _ _ stepped _ => stepped)

theorem writing_sound (codec : HeadsRoundTrip env) (lossless : env.toPrimitives.Lossless)
    (reached : Pool.Reachable (System.world env.toPrimitives backend faulty) (Call.body env)
      (Writing accepts) System.empty pool)
    (distinct : pool.state.HeadsDistinct env.toPrimitives backend) :
    Pool.Sound (archiveWorld env backend faulty) (archiveProtocol env accepts backend)
      (Promises accepts) pool := by
  apply (reachable_archive reached distinct).sound _ inv_empty
  intro pool call allowed _
  cases call with
  | publish package gate =>
      apply (publish_safe codec allowed).weaken
      intro outcome later _ _ returned done
      exact ⟨allowed, returned () done⟩
  | compactOnce chainId => exact (compactOnce_safe codec lossless).weaken (fun _ _ _ _ _ => trivial)
  | collectGarbage | openReader | account | storage | code => exact allowed.elim

/-! Head updates. -/

/-- The expected state as the filesystem store would have reported it. -/
def VersionedBytes.digested (env : Primitives) (found : VersionedBytes) : VersionedBytes :=
  ⟨found.bytes, .digest (env.sha256 found.bytes)⟩

/-- The filesystem store goes by bytes, if digests tell the heads apart. -/
theorem compareAndSwap_digested {owner : Call} {state : ArchiveSystem} {chainId : UInt64}
    {expected : Option VersionedBytes} {bytes : Bytes}
    (apart : ∀ found ∈ expected, ∀ current, state.content (.head chainId) = some current →
      env.sha256 found.bytes = env.sha256 current → found.bytes = current) :
    (state.compareAndSwap env.toPrimitives .filesystem owner (.head chainId)
        (expected.map (VersionedBytes.digested env.toPrimitives)) bytes).1 = .ok () ↔
      state.content (.head chainId) = expected.map VersionedBytes.bytes := by
  cases expected with
  | none => exact (undisturbed_none bytes).2
  | some found =>
      constructor
      · intro done
        rcases state.compareAndSwap_cases env.toPrimitives .filesystem owner chainId
          (some (found.digested env.toPrimitives)) bytes with ⟨failed, _⟩ | ⟨_, matched, _⟩
        · exact absurd done failed
        · rcases matching_some matched with ⟨entry, present, version⟩
          have content : state.content (.head chainId) = some entry.bytes := by
            rw [System.content, present]
            rfl
          rw [content, Option.map_some, apart found rfl entry.bytes content (VersionTag.digest.inj version)]
      · intro content
        rcases Option.map_eq_some_iff.mp content with ⟨entry, present, same⟩
        exact compareAndSwap_of_matching present same
          (by rw [VersionedBytes.digested, ← same]; rfl)

/-- Heads only ever advance, no head is committed twice, and so a head update goes by
the bytes the caller has read, whichever way the store tells versions apart. -/
theorem head_updates_by_content (codec : HeadsRoundTrip env) (lossless : env.toPrimitives.Lossless)
    (reached : Pool.Reachable (System.world env.toPrimitives backend faulty) (Call.body env)
      (Writing accepts) System.empty pool)
    (distinct : pool.state.HeadsDistinct env.toPrimitives .filesystem) :
    (∀ chainId, ((pool.state.commits chainId).map Commit.bytes).Pairwise (Precedes env)) ∧
    (∀ chainId, ((pool.state.commits chainId).map Commit.bytes).Nodup) ∧
    ∀ call chainId expected bytes next,
      ⟨call, .call (.compareAndSwap (.head chainId) expected bytes) next⟩ ∈ pool.tasks →
      ((pool.state.compareAndSwap env.toPrimitives backend call (.head chainId) expected bytes).1 = .ok () ↔
        pool.state.content (.head chainId) = expected.map VersionedBytes.bytes) ∧
      ((pool.state.compareAndSwap env.toPrimitives backend call (.head chainId) expected bytes).1 = .ok () ↔
        (pool.state.compareAndSwap env.toPrimitives .filesystem call (.head chainId)
          (expected.map (VersionedBytes.digested env.toPrimitives)) bytes).1 = .ok ()) := by
  have sound := writing_sound codec lossless reached (fun _ => distinct rfl)
  have increasing : ∀ chainId, ((pool.state.commits chainId).map Commit.bytes).Pairwise (Precedes env) := by
    intro chainId
    by_cases nothing : pool.state.commits chainId = []
    · rw [nothing]
      exact .nil
    · rcases sound.1.history chainId nothing with ⟨manifest, bytes, history⟩
      exact history.increasing codec
  refine ⟨increasing, fun chainId => (increasing chainId).imp (fun precedes => precedes.ne), ?_⟩
  intro call chainId expected bytes next pending
  have permitted : Undisturbed env.toPrimitives backend call
      (.compareAndSwap (.head chainId) expected bytes) pool.state :=
    (sound.2 _ pending).permitted (.ok ()) sound.1 exists_broken
  refine ⟨permitted.2, ?_⟩
  rw [permitted.2, compareAndSwap_digested]
  intro found inside current content digests
  rcases permitted.1 found inside with ⟨commit, committed, same⟩
  have heads := sound.1.heads chainId
  rw [content] at heads
  rcases Option.map_eq_some_iff.mp heads.symm with ⟨last, isLast, sameLast⟩
  rw [← same, ← sameLast] at digests ⊢
  exact distinct rfl commit (List.mem_of_mem_filter committed) last
    (List.mem_of_mem_filter (List.mem_of_getLast? isLast)) digests

end

/-! A chain of packages without events, on real digests. -/

def chainBlock (number : UInt64) : BlockMeta :=
  ⟨number, .ofNat (0xa0 + number.toNat), if number = 0 then .zero else .ofNat (0x9f + number.toNat), .zero, 0⟩

def chainPackage (number : UInt64) : Package :=
  ⟨if number = 0 then .anchor else .delta, if number = 0 then none else some (number - 1),
    if number = 0 then none else some (.ofNat (0x9f + number.toNat)), .ofNat (0xb0 + number.toNat),
    ⟨1, .ofNat 0xa0, number, number, [chainBlock number], [], [], []⟩⟩

def chainCall (number : UInt64) : Call :=
  .publish (chainPackage number) (.finalized number (.ofNat (0xa0 + number.toNat)))

def chainHead (number : UInt64) (parent : Option ObjectRef) (runs : List Run) : Head :=
  ⟨headMagic, 1, .ofNat 0xa0, number, .ofNat (0xa0 + number.toNat), .zero, .ofNat (0xb0 + number.toNat),
    parent, runs, []⟩

def firstHead : Head := chainHead 0 none [emptyRun 0 1]

def secondHead : Head :=
  chainHead 1 (some ⟨.ofNat 0xac462ddd0a0ac5aa41aa97b1e193d2ae6d8e2d40209d3c9203a788a6bb75b5d0, 1724⟩)
    [emptyRun 0 1, emptyRun 1 1]

def thirdHead : Head :=
  chainHead 2 (some ⟨.ofNat 0x4b196c02d3f59f6486ff28a6d5a54d937b23673f84db18e987508ea0b3f679f7, 3142⟩)
    [emptyRun 0 1, emptyRun 1 1, emptyRun 2 1]

def chainDigests : List (Bytes × Nat) := [
  (emptyRoot, 0x02aa3a5ef70be6c080df29856d9a5d428c571527610fe61dc5f11f35173ec53c),
  (shardBody (emptyRun 0 1).root.digest 1 .address 0 (List.replicate 128 0),
    0xee353b7d97add0a2dc22405812d154c2a949e1ce3422c0c4d3062b63125bc03c),
  (shardBody (emptyRun 0 1).root.digest 1 .spill 0 (List.replicate 128 0),
    0xd7ba12ea4dbd08b374e5bd993541d4ec2f0bd13d0d171e9370d44d8b181df395),
  (firstHead.jsonBytes, 0xac462ddd0a0ac5aa41aa97b1e193d2ae6d8e2d40209d3c9203a788a6bb75b5d0),
  (secondHead.jsonBytes, 0x4b196c02d3f59f6486ff28a6d5a54d937b23673f84db18e987508ea0b3f679f7)]

def chainEnv : Externals :=
  .ofTables ⟨digestOf chainDigests, fun _ => bail "no pages", fun _ _ => bail "no pages"⟩ [] []
    [firstHead, secondHead, thirdHead]

def chainLaunch (pool : ArchivePool) (number : UInt64) (steps : Nat) : ArchivePool :=
  pool.launch (fun owner state => state.perform chainEnv.toPrimitives .memory owner) (Call.body chainEnv)
    (chainCall number) steps

/-- Two publications, and a third one about to swap the head. -/
def chainPool : ArchivePool := chainLaunch (chainLaunch (chainLaunch ⟨System.empty, []⟩ 0 8) 1 9) 2 8

theorem chainLaunch_reachable {accepts : Package → Prop} {faulty : StoreOp → Prop} {pool : ArchivePool}
    (reached : Pool.Reachable (System.world chainEnv.toPrimitives .memory faulty) (Call.body chainEnv)
      (Writing accepts) System.empty pool) {number : UInt64} (allowed : accepts (chainPackage number))
    (steps : Nat) :
    Pool.Reachable (System.world chainEnv.toPrimitives .memory faulty) (Call.body chainEnv)
      (Writing accepts) System.empty (chainLaunch pool number steps) := by
  have enabled : Writing accepts pool (chainCall number) := allowed
  exact reached.launch (@System.perform_step Call chainEnv.toPrimitives .memory faulty) enabled steps

theorem chainPool_reachable {faulty : StoreOp → Prop} :
    Pool.Reachable (System.world chainEnv.toPrimitives .memory faulty) (Call.body chainEnv)
      (Writing (fun _ => True)) System.empty chainPool :=
  chainLaunch_reachable (chainLaunch_reachable (chainLaunch_reachable .start trivial 8) trivial 9) trivial 8

/-- The head a swap expects to find. -/
def StoreOp.expected? : StoreOp → Option (Key × Option VersionedBytes)
  | .compareAndSwap key expected _ => some (key, expected)
  | _ => none

/-- What a commit put where, and the package it appended. -/
def Commit.row (commit : Commit Call) : Key × Bytes × Option Package :=
  (commit.key, commit.bytes, commit.package?)

theorem commits_of_rows {state : ArchiveSystem} {rows : List (Key × Bytes × Option Package)}
    (log : state.log.map Commit.row = rows) (chainId : UInt64) :
    (state.commits chainId).map Commit.bytes =
        (rows.filter (fun row => row.1 = .head chainId)).map (fun row => row.2.1) ∧
      committed state chainId = (rows.filter (fun row => row.1 = .head chainId)).filterMap (fun row => row.2.2) := by
  have rows' : rows.filter (fun row => row.1 = .head chainId) = (state.commits chainId).map Commit.row := by
    rw [← log, List.filter_map]
    rfl
  rw [rows', List.map_map, List.filterMap_map]
  exact ⟨rfl, rfl⟩

def chainRows : List (Key × Bytes × Option Package) :=
  [(.head 1, firstHead.jsonBytes, some (chainPackage 0)), (.head 1, secondHead.jsonBytes, some (chainPackage 1))]

/-- Two heads are committed, and the third publication expects the second of them. -/
theorem chainPool_run :
    chainPool.state.log.map Commit.row = chainRows ∧
    (chainPool.tasks.map (fun task => task.prog.pending?.bind StoreOp.expected?)).getLast? =
      some (some (.head 1, some ⟨secondHead.jsonBytes, .counter 6⟩)) := by
  decide +kernel

theorem chainPool_commits :
    (chainPool.state.commits 1).map Commit.bytes = [firstHead.jsonBytes, secondHead.jsonBytes] ∧
      committed chainPool.state 1 = [chainPackage 0, chainPackage 1] :=
  commits_of_rows chainPool_run.1 1

theorem chainEnv_roundTrip : HeadsRoundTrip chainEnv := by
  apply ofTables_roundTrip 256
  decide +kernel

theorem chainEnv_lossless : chainEnv.toPrimitives.Lossless := nofun

theorem chainPool_distinct : chainPool.state.HeadsDistinct chainEnv.toPrimitives .filesystem := by
  have logged : ∀ commit ∈ chainPool.state.log, commit.bytes ∈ [firstHead.jsonBytes, secondHead.jsonBytes] := by
    intro commit member
    have row : commit.row ∈ chainRows := by
      rw [← chainPool_run.1]
      exact List.mem_map_of_mem member
    exact List.mem_map_of_mem (f := fun row => row.2.1) row
  have apart : ∀ first ∈ [firstHead.jsonBytes, secondHead.jsonBytes],
      ∀ second ∈ [firstHead.jsonBytes, secondHead.jsonBytes],
      chainEnv.sha256 first = chainEnv.sha256 second → first = second := by
    decide +kernel
  intro _ first inFirst second inSecond
  exact apart _ (logged first inFirst) _ (logged second inSecond)

theorem head_updates_on_chain :
    ∃ bytes next, (⟨chainCall 2, .call (.compareAndSwap (.head 1)
        (some ⟨secondHead.jsonBytes, .counter 6⟩) bytes) next⟩ :
          Task Call Call.Out StoreOp StoreOp.Resp Error) ∈ chainPool.tasks ∧
      [firstHead.jsonBytes, secondHead.jsonBytes].Pairwise (Precedes chainEnv) ∧
      ((chainPool.state.compareAndSwap chainEnv.toPrimitives .memory (chainCall 2) (.head 1)
          (some ⟨secondHead.jsonBytes, .counter 6⟩) bytes).1 = .ok () ↔
        (chainPool.state.compareAndSwap chainEnv.toPrimitives .filesystem (chainCall 2) (.head 1)
          (some ⟨secondHead.jsonBytes, .digest (chainEnv.sha256 secondHead.jsonBytes)⟩) bytes).1 = .ok ()) := by
  have updates := head_updates_by_content chainEnv_roundTrip chainEnv_lossless
    (@chainPool_reachable (fun _ => True)) chainPool_distinct
  have last := chainPool_run.2
  unfold chainPool at last ⊢
  unfold chainLaunch at last
  rcases Pool.launch_pending last with ⟨op, next, expects, member⟩
  cases op with
  | compareAndSwap key expected bytes =>
      cases expects
      refine ⟨bytes, next, member, ?_, (updates.2.2 _ _ _ _ _ member).2⟩
      rw [← chainPool_commits.1]
      exact updates.1 1
  | _ => cases expects

end Fossil

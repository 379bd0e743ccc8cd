import Fossil.Collected
import Fossil.Answers

/-! Several chains in one store.

Heads are kept apart by chain, objects and shards are not. A collection walks the head
of one chain and deletes every other object that is old, so it leaves a neighbour alone
exactly when the two chains share what the neighbour needs or the rest is young. -/

namespace Fossil

section

variable (env : Externals) (backend : Backend) (owner : Call)

/-- Every query of a fresh reader can end in the same ways in both states. -/
structure AnswersAlike (chainId : UInt64) (before after : ArchiveSystem) : Prop where
  account : ∀ address block outcome,
    Asked env backend owner chainId (fun reader => reader.account env address block) after outcome ↔
      Asked env backend owner chainId (fun reader => reader.account env address block) before outcome
  storage : ∀ address slot block outcome,
    Asked env backend owner chainId (fun reader => reader.storage env address slot block) after outcome ↔
      Asked env backend owner chainId (fun reader => reader.storage env address slot block) before outcome
  code : ∀ address block outcome,
    Asked env backend owner chainId (fun reader => reader.code env address block) after outcome ↔
      Asked env backend owner chainId (fun reader => reader.code env address block) before outcome

/-- The head a chain has in a state. -/
def System.Heads (state : ArchiveSystem) (chainId : UInt64) (head : Head) : Prop :=
  ∃ bytes, state.content (.head chainId) = some bytes ∧ Head.decode env bytes = .ok head

/-- Everything the head of a chain reached is still there, and readers notice nothing. -/
def Unharmed (chainId : UInt64) (before after : ArchiveSystem) : Prop :=
  ∀ head, before.Heads env chainId head →
    (∀ key, head.Reaches env.toPrimitives (before.view env.toPrimitives backend owner) key →
      (after.lookup key).isSome = true) ∧
    AnswersAlike env backend owner chainId before after

/-- What the heads of all chains reach is kept for the collected chain or young. -/
def Sheltered (chainId : UInt64) (keepHeads : Nat) (minAge started : Time) (state : ArchiveSystem) : Prop :=
  ∀ head, state.Heads env chainId head → ∀ other neighbour, state.Heads env other neighbour →
    ∀ key, neighbour.Reaches env.toPrimitives (state.view env.toPrimitives backend owner) key →
      Keeps env backend owner state chainId keepHeads head key ∨ ¬ state.Aged started minAge key

end

section

variable {env : Externals} {accepts : Package → Prop} {backend : Backend} {faulty : StoreOp → Prop} {owner : Call}
  {state after : ArchiveSystem} {pool : ArchivePool} {chainId : UInt64} {keepHeads : Nat} {minAge started : Time}
  {head : Head}

/-- A chain of a written archive: its head is read, its runs are stored and told apart,
and the copies of its earlier heads are found. -/
structure Standing (env : Externals) (backend : Backend) (owner : Call) (state : ArchiveSystem) (chainId : UInt64)
    (head : Head) : Prop where
  read : ∃ bytes, ((readHead env chainId).run (state.replies env.toPrimitives backend owner)).2 =
    .ok (some (bytes, head))
  separate : Separate (Run.listed env (state.replies env.toPrimitives backend owner)) head.runs
  copies : ∀ keepHeads, headCopies env (state.replies env.toPrimitives backend owner) keepHeads head.parent =
    ((state.commits chainId).dropLast.reverse.take keepHeads).map (fun commit => env.sha256 commit.bytes)
  present : ∀ key, head.Reaches env.toPrimitives (state.view env.toPrimitives backend owner) key →
    (state.lookup key).isSome = true

theorem Inv.standing (codec : HeadsRoundTrip env) (lossless : env.toPrimitives.Lossless)
    (inv : Inv env accepts backend state) (owner : Call) (nameable : state.content (.object Fixed.zero) = none)
    (heads : state.Heads env chainId head) : Standing env backend owner state chainId head := by
  rcases heads with ⟨bytes, content, decodes⟩
  rcases inv.current content with ⟨manifest, history⟩
  rcases @History.copies _ _ backend owner _ _ codec _ _ _ history with ⟨parent, encoded, copies⟩
  have decoded : Head.decode env bytes = .ok (manifest.head parent) := decode_head codec encoded
  obtain rfl : head = manifest.head parent := Except.ok.inj (decodes.symm.trans decoded)
  rcases Option.map_eq_some_iff.mp content with ⟨entry, found, rfl⟩
  refine ⟨⟨⟨entry.bytes, System.versionOf env.toPrimitives backend entry⟩, ?_⟩,
    separate_current parent lossless nameable history.stored history.sized, copies,
    fun key reaches => reaches_present parent lossless nameable history.stored reaches⟩
  refine readHead_run.mpr ⟨?_, decodes, history.head.2.2⟩
  show state.readMutableBounded env.toPrimitives backend (.head chainId) maxHead = _
  unfold System.readMutableBounded
  rw [found]
  exact if_neg (Nat.not_lt_of_le history.head.2.1)

/-- Readers notice nothing where everything the head reaches is as it was. -/
theorem Standing.answersAlike (standing : Standing env backend owner state chainId head) {doomed : List Key}
    (purged : Purged doomed state after) (headSpared : Key.head chainId ∉ doomed)
    (spared : ∀ key, head.Reaches env.toPrimitives (state.view env.toPrimitives backend owner) key → key ∉ doomed) :
    AnswersAlike env backend owner chainId state after := by
  rcases standing.read with ⟨bytes, read⟩
  have alike : Alike (fun key => key ∉ doomed) state after := by
    refine ⟨?_, purged.memo.symm, purged.nextCache.symm⟩
    intro key outside
    rw [purged.lookup, if_neg outside]
  have asked : ∀ {α : Type} {query : Reader → StoreProg α} {outcome : Except Error α},
      (∀ (keys : Key → Prop) (reader : Reader) (now : ArchiveSystem),
        reader.Within env backend owner keys state → now.entries = state.entries →
          Stays env backend owner keys state now (query reader)) →
      (Asked env backend owner chainId query after outcome ↔
        Asked env backend owner chainId query state outcome) := by
    intro α query outcome stays
    refine (reads_alike headSpared ?_ (stays _) alike).symm
    intro found current again key reaches
    cases read.symm.trans again
    exact spared key reaches
  exact ⟨fun address block outcome => asked (fun _ _ _ within same => account_stays within same),
    fun address slot block outcome => asked (fun _ _ _ within same => storage_stays within same),
    fun address block outcome => asked (fun _ _ _ within same => code_stays within same)⟩

/-- A collection spares a chain iff it deletes nothing that the head reaches. -/
theorem Standing.spared_iff (standing : Standing env backend owner state chainId head) {doomed : List Key}
    (purged : Purged doomed state after) (headSpared : Key.head chainId ∉ doomed) :
    ((∀ key, head.Reaches env.toPrimitives (state.view env.toPrimitives backend owner) key →
        (after.lookup key).isSome = true) ∧ AnswersAlike env backend owner chainId state after) ↔
      ∀ key, head.Reaches env.toPrimitives (state.view env.toPrimitives backend owner) key → key ∉ doomed := by
  constructor
  · rintro ⟨present, _⟩ key reaches inside
    have still := present key reaches
    rw [purged.lookup, if_pos inside] at still
    cases still
  · intro outside
    refine ⟨?_, standing.answersAlike purged headSpared outside⟩
    intro key reaches
    rw [purged.lookup, if_neg (outside key reaches)]
    exact standing.present key reaches

theorem readHead_absent (absent : state.content (.head chainId) = none) :
    ((readHead env chainId).run (state.replies env.toPrimitives backend owner)).2 = .ok none := by
  have missing : state.lookup (.head chainId) = none := Option.map_eq_none_iff.mp absent
  have reply : state.replies env.toPrimitives backend owner (.readMutableBounded (.head chainId) maxHead) =
      .ok none := by
    show state.readMutableBounded env.toPrimitives backend (.head chainId) maxHead = _
    unfold System.readMutableBounded
    rw [missing]
  apply Prog.run_bind_eq_ok.mpr
  exact ⟨none, (run_readMutableBounded _ _ _).trans reply, rfl⟩

/-- A collection purges the aged objects that its chain does not keep, and nothing if
the chain has no head. -/
theorem Inv.collects (codec : HeadsRoundTrip env) (lossless : env.toPrimitives.Lossless)
    (inv : Inv env accepts backend state) (nameable : state.content (.object Fixed.zero) = none)
    (begun : state.clock ≤ started) :
    (collectSince env chainId keepHeads minAge false started).Follows ((calm env.toPrimitives backend).step owner)
      (fun outcome after => (state.content (.head chainId) ≠ none → ∃ report, outcome = .ok report) ∧
        ∃ doomed, Purged doomed state after ∧
          ∀ key, key ∈ doomed ↔ key.immutable = true ∧ state.Aged started minAge key ∧
            ∃ head, state.Heads env chainId head ∧
              ¬ Keeps env backend owner state chainId keepHeads head key) (state.tick started) := by
  cases content : state.content (.head chainId) with
  | none =>
      show Prog.Follows _ _ ((readHead env chainId).bind _) _
      apply Prog.Follows.bind
      apply follows_reads state (readHead_reads chainId)
      intro clock passed
      rw [readHead_absent content]
      refine ⟨fun headed => absurd rfl headed, [], Purged.tick (begun.trans passed), ?_⟩
      intro key
      constructor
      · exact fun inside => nomatch inside
      · rintro ⟨_, _, head, ⟨bytes, found, _⟩, _⟩
        cases content.symm.trans found
  | some bytes =>
      rcases inv.current content with ⟨manifest, history⟩
      rcases history.head with ⟨⟨parent, encoded⟩, _⟩
      have decoded : Head.decode env bytes = .ok (manifest.head parent) := decode_head codec encoded
      have heads : state.Heads env chainId (manifest.head parent) := ⟨bytes, content, decoded⟩
      have standing := inv.standing codec lossless owner nameable heads
      rcases standing.read with ⟨found, read⟩
      rcases standing.separate.keeps (standing.copies keepHeads) with ⟨live, final, first, second, members⟩
      apply (collectSince_follows read first second begun).weaken
      rintro outcome after ⟨report, doomed, done, purged, inDoomed, _⟩
      refine ⟨fun _ => ⟨report, done⟩, doomed, purged, ?_⟩
      intro key
      rw [inDoomed, members]
      constructor
      · rintro ⟨immutable, aged, outside⟩
        exact ⟨immutable, aged, _, heads, outside⟩
      · rintro ⟨immutable, aged, head, ⟨other, found', decodes⟩, outside⟩
        cases content.symm.trans found'
        cases decodes.symm.trans decoded
        exact ⟨immutable, aged, outside⟩

theorem Head.Reaches.immutable {view : ObjectRef → Result Bytes} {key : Key}
    (reaches : head.Reaches env.toPrimitives view key) : key.immutable = true := by
  cases reaches <;> rfl

/-- A collection harms no chain of the store iff everything the heads reach is kept for
the collected chain or young. -/
theorem collection_spares_iff (codec : HeadsRoundTrip env) (lossless : env.toPrimitives.Lossless)
    (reached : Pool.Reachable (System.world env.toPrimitives backend faulty) (Call.body env)
      (Writing accepts) System.empty pool)
    (distinct : pool.state.HeadsDistinct env.toPrimitives backend)
    (nameable : pool.state.content (.object Fixed.zero) = none)
    (chainId : UInt64) (keepHeads : Nat) (minAge : Time) :
    collectGarbage env chainId keepHeads minAge false = now.bind (collectSince env chainId keepHeads minAge false) ∧
    ∀ started, pool.state.clock ≤ started →
      (collectSince env chainId keepHeads minAge false started).Follows
        ((calm env.toPrimitives backend).step owner)
        (fun outcome after => (pool.state.content (.head chainId) ≠ none → ∃ report, outcome = .ok report) ∧
          ((∀ other, Unharmed env backend owner other pool.state after) ↔
            Sheltered env backend owner chainId keepHeads minAge started pool.state))
        (pool.state.tick started) := by
  refine ⟨rfl, ?_⟩
  intro started begun
  have inv := (writing_sound codec lossless reached distinct).1
  apply (inv.collects codec lossless nameable begun).weaken
  rintro outcome after ⟨done, doomed, purged, inDoomed⟩
  have headSpared : ∀ other, Key.head other ∉ doomed := fun other inside => nomatch ((inDoomed _).mp inside).1
  have spared := fun other head heads =>
    (@Inv.standing _ _ _ _ other head codec lossless inv owner nameable heads).spared_iff purged (headSpared other)
  refine ⟨done, ?_⟩
  constructor
  · intro all head heads other neighbour neighbours key reaches
    have outside := (spared other neighbour neighbours).mp (all other neighbour neighbours) key reaches
    by_contra exposed
    rw [not_or, not_not] at exposed
    exact outside ((inDoomed key).mpr ⟨reaches.immutable, exposed.2, head, heads, exposed.1⟩)
  · intro sheltered other neighbour neighbours
    apply (spared other neighbour neighbours).mpr
    intro key reaches inside
    rcases (inDoomed key).mp inside with ⟨_, aged, head, heads, outside⟩
    exact (sheltered head heads other neighbour neighbours key reaches).elim outside (fun young => young aged)

end

/-! The split anchor with a neighbour: a second chain whose only package has no events. -/

def neighbourPackage : Package :=
  { chainPackage 0 with segment := { (chainPackage 0).segment with chainId := 2 } }

def neighbourHead : Head := { firstHead with chainId := 2 }

def pairEnv : Externals :=
  .ofTables { splitPrimitives with sha256 := digestOf (splitDigests ++ chainDigests.take 3) }
    [([], 0xc5d2460186f7233c927e7db2dcc703c0e500b653ca82273b7bfad8045d85a470),
      ([0x12], 0x5fa2358263196dbbf23d1ca7a509451f7a2f64c15837bfbb81298b1e3e24e4fa)] [] [splitHead, neighbourHead]

def pairPerform (call : Call) (state : ArchiveSystem) (op : StoreOp) : op.Resp × ArchiveSystem :=
  state.perform pairEnv.toPrimitives .memory call op

/-- Both chains are published. -/
def pairPool : ArchivePool :=
  (Pool.launch pairPerform (Call.body pairEnv) ⟨System.empty, []⟩ splitPublish 12).launch pairPerform (Call.body pairEnv)
    (.publish neighbourPackage (.finalized 0 (.ofNat 0xa0))) 8

def pairCall : Call := .collectGarbage 2 2 gcMinAge false

/-- The store once the second chain has been collected, as late as the default age allows. -/
def pairCollected : Except Error GcReport × ArchiveSystem :=
  (collectGarbage pairEnv 2 2 gcMinAge false).execute (pairPerform pairCall) (pairPool.state.tick gcMinAge)

theorem pairLaunch_reachable {pool : ArchivePool} {call : Call} (steps : Nat)
    (reached : Pool.Reachable (System.world pairEnv.toPrimitives .memory (fun _ => False)) (Call.body pairEnv)
      (Writing (fun _ => True)) System.empty pool) (allowed : Writing (fun _ => True) pool call) :
    Pool.Reachable (System.world pairEnv.toPrimitives .memory (fun _ => False)) (Call.body pairEnv)
      (Writing (fun _ => True)) System.empty (pool.launch pairPerform (Call.body pairEnv) call steps) :=
  reached.launch (@System.perform_step Call pairEnv.toPrimitives .memory (fun _ => False)) allowed steps

theorem pairPool_reachable :
    Pool.Reachable (System.world pairEnv.toPrimitives .memory (fun _ => False)) (Call.body pairEnv)
      (Writing (fun _ => True)) System.empty pairPool := by
  have published := @pairLaunch_reachable _ splitPublish 12 .start trivial
  exact @pairLaunch_reachable _ (.publish neighbourPackage (.finalized 0 (.ofNat 0xa0))) 8 published trivial

/-- The account of the split anchor, asked of a fresh reader. -/
def pairAsked (state : ArchiveSystem) : Except Error (Option AccountEvent) × ArchiveSystem :=
  ((Reader.open pairEnv 1).bind (fun reader => reader.account pairEnv splitAddress 1)).execute (pairPerform pairCall)
    state

theorem pairPool_run :
    pairPool.state.content (.head 1) = some splitHead.jsonBytes ∧
    Head.decode pairEnv splitHead.jsonBytes = .ok splitHead ∧
    pairPool.state.content (.object .zero) = none ∧ pairPool.state.clock = 0 ∧
    pairCollected.1.toOption.isSome = true ∧ pairCollected.2.lookup splitRun.rootKey = none ∧
    (pairAsked pairPool.state).1 = .ok (some splitAccount) ∧
    (pairAsked pairCollected.2).1.toOption = none := by
  decide +kernel

theorem pairPool_heads : pairPool.state.Heads pairEnv 1 splitHead := ⟨_, pairPool_run.1, pairPool_run.2.1⟩

/-- The collection of the second chain deletes the run of the first. -/
theorem collection_harms_neighbour :
    Pool.Reachable (System.world pairEnv.toPrimitives .memory (fun _ => False)) (Call.body pairEnv)
      (Writing (fun _ => True)) System.empty pairPool ∧
    pairPool.state.Heads pairEnv 1 splitHead ∧ pairCollected.1.toOption.isSome = true ∧
    ¬ Unharmed pairEnv .memory pairCall 1 pairPool.state pairCollected.2 ∧
    (pairAsked pairPool.state).1 = .ok (some splitAccount) ∧ (pairAsked pairCollected.2).1.toOption = none := by
  have run := pairPool_run
  refine ⟨pairPool_reachable, pairPool_heads, run.2.2.2.2.1, ?_, run.2.2.2.2.2.2⟩
  intro spared
  have still := (spared splitHead pairPool_heads).1 splitRun.rootKey (.root (List.mem_singleton.mpr rfl))
  rw [run.2.2.2.2.2.1] at still
  cases still

theorem pairEnv_roundTrip : HeadsRoundTrip pairEnv := by
  apply ofTables_roundTrip 256
  decide +kernel

theorem pairEnv_lossless : pairEnv.toPrimitives.Lossless := splitEnv_lossless

/-- Before the default age is reached, the collection of the second chain harms neither. -/
theorem collection_spares_pair :
    Sheltered pairEnv .memory pairCall 2 2 gcMinAge 0 pairPool.state ∧
    (collectSince pairEnv 2 2 gcMinAge false 0).Follows ((calm pairEnv.toPrimitives .memory).step pairCall)
      (fun outcome after => (pairPool.state.content (.head 2) ≠ none → ∃ report, outcome = .ok report) ∧
        ((∀ other, Unharmed pairEnv .memory pairCall other pairPool.state after) ↔
          Sheltered pairEnv .memory pairCall 2 2 gcMinAge 0 pairPool.state))
      (pairPool.state.tick 0) := by
  refine ⟨?_, (collection_spares_iff pairEnv_roundTrip pairEnv_lossless pairPool_reachable nofun
    pairPool_run.2.2.1 2 2 gcMinAge).2 0 (Nat.le_of_eq pairPool_run.2.2.2.1)⟩
  intro head _ other neighbour _ key _
  refine .inr ?_
  rintro ⟨entry, _, aged⟩
  have positive : (0 : Int) < (gcMinAge : Int) := by decide
  omega

end Fossil

import Fossil.ReadBack
import Fossil.Rebuild

/-! What a call can do to the store, whatever else goes on there.

Heads change by swaps and by nothing else, objects and shards are only ever added, and
only a collection deletes, among the objects and shards it has listed. This holds of every
call and along every schedule, with failing operations and collections included. -/

namespace Fossil

/-- Puts are of immutable objects, swaps are of heads, and deletes never are. -/
def StoreOp.Bounded (swaps collects : Prop) : StoreOp → Prop
  | .putImmutable key _ => key.immutable = true
  | .compareAndSwap key _ _ => swaps ∧ ∃ chainId, key = .head chainId
  | .delete key => collects ∧ key.immutable = true
  | _ => True

/-- A listing names objects of its directory. -/
def Listing : (op : StoreOp) → Unit → op.Resp → Unit → Prop
  | .list directory, _, reply, _ =>
      ∀ listed, reply = .ok listed → ∀ item ∈ listed, directory.holds item.key = true
  | _, _, _, _ => True

/-- The calls that swap heads. -/
def Call.Swaps : Call → Prop
  | .publish .. => True
  | .compactOnce _ => True
  | _ => False

/-- The calls that delete. -/
def Call.Collects : Call → Prop
  | .collectGarbage .. => True
  | _ => False

/-- The program keeps within these bounds on every store that lists what it holds. -/
abbrev Footprint {α : Type} (swaps collects : Prop) (prog : StoreProg α) : Prop :=
  prog.Confined (fun op _ => op.Bounded swaps collects) Listing (fun _ _ => True) ()

section

variable {α β : Type} {swaps collects : Prop}

theorem StoreOp.Reads.bounded {op : StoreOp} (reads : op.Reads) : op.Bounded swaps collects := by
  cases op with
  | getBounded | readMutableBounded => trivial
  | _ => exact reads.elim

theorem StoreOp.Queries.bounded {op : StoreOp} (queries : op.Queries) : op.Bounded swaps collects := by
  cases op with
  | getBounded | shardsGet | shardsInsert => trivial
  | _ => exact queries.elim

theorem Prog.Asks.bounded {good : StoreOp → Prop} {prog : StoreProg α} (asks : prog.Asks good)
    (implies : ∀ op, good op → op.Bounded swaps collects) : prog.Asks (StoreOp.Bounded swaps collects) := by
  induction prog with
  | ret value => trivial
  | fail error => trivial
  | call op next ih => exact ⟨implies op asks.1, fun reply => ih reply (asks.2 reply)⟩

theorem Footprint.of_asks {prog : StoreProg α} (asks : prog.Asks (StoreOp.Bounded swaps collects)) :
    Footprint swaps collects prog := by
  induction prog with
  | ret value => trivial
  | fail error => trivial
  | call op next ih => exact ⟨asks.1, fun reply _ _ => ih reply (asks.2 reply)⟩

theorem Footprint.bind {prog : StoreProg α} {next : α → StoreProg β} (first : Footprint swaps collects prog)
    (rest : ∀ value, Footprint swaps collects (next value)) : Footprint swaps collects (prog.bind next) := by
  apply Prog.Confined.bind
  apply Prog.Confined.weaken first
  intro outcome _ _
  cases outcome with
  | ok value => exact rest value
  | error error => trivial

theorem footprint_list {directory : Directory} {next : List Listed → StoreProg α}
    (rest : ∀ listed, (∀ item ∈ listed, directory.holds item.key = true) →
      Footprint swaps collects (next listed)) :
    Footprint swaps collects ((listDirectory directory).bind next) :=
  ⟨trivial, fun _ _ honest => Prog.confined_ofExcept_bind (fun _ => trivial)
    (fun listed done => rest listed (honest listed done))⟩

end

/-! Writers. -/

section

variable {env : Externals} {swaps collects : Prop}

theorem choose_bounded (bound : Nat) : (choose bound).Asks (StoreOp.Bounded swaps collects) :=
  ⟨trivial, fun _ => trivial⟩

theorem now_bounded : now.Asks (StoreOp.Bounded swaps collects) := ⟨trivial, fun _ => trivial⟩

theorem readHead_bounded (chainId : UInt64) : (readHead env chainId).Asks (StoreOp.Bounded swaps collects) :=
  (readHead_reads chainId).bounded (fun _ reads => reads.bounded)

theorem put_bounded {key : Key} {bytes : Bytes} (immutable : key.immutable = true) :
    (putImmutable key bytes).Asks (StoreOp.Bounded swaps collects) :=
  Prog.asks_request immutable

theorem putAll_bounded {fuel : Nat} {objects : List (Key × Bytes)}
    (immutable : ∀ object ∈ objects, object.1.immutable = true) :
    (putAll fuel objects).Asks (StoreOp.Bounded swaps collects) := by
  induction fuel generalizing objects with
  | zero => trivial
  | succ fuel ih =>
      refine (choose_bounded _).bind ?_
      intro n
      cases found : objects[n % objects.length]? with
      | none => trivial
      | some object =>
          refine (put_bounded (immutable object (List.mem_of_getElem? found))).bind ?_
          exact fun _ => ih (fun other member => immutable other (List.mem_of_mem_eraseIdx member))

theorem writeSorted_bounded (records : List Record) :
    (writeSorted env.toPrimitives records).Asks (StoreOp.Bounded swaps collects) := by
  apply Prog.asks_ofExcept_bind
  intro empty made
  apply Prog.asks_ofExcept_bind
  intro root granted
  have whole := buildRun_immutable (buildRun_eq_ok.mpr ⟨empty, _, root, made, Prod.ext rfl granted, rfl, rfl⟩)
  refine (putAll_bounded (fun object member => whole object (List.mem_append_left _ member))).bind ?_
  intro _
  refine (putAll_bounded (fun object member => whole object (List.mem_append_right _ member))).bind ?_
  exact fun _ => trivial

theorem upload_bounded {fuel : Nat} {pipeline : Pipeline} :
    (Pipeline.upload fuel pipeline).Asks (StoreOp.Bounded swaps collects) := by
  induction fuel generalizing pipeline with
  | zero => trivial
  | succ fuel ih =>
      refine (choose_bounded _).bind ?_
      intro n
      cases pipeline.pending[n]? with
      | none => trivial
      | some object =>
          refine (put_bounded rfl).attempt.bind ?_
          intro stored
          cases stored with
          | ok value => exact ih
          | error error => trivial

theorem pipelineFetch_bounded (pipeline : Pipeline) (reference : ObjectRef) :
    (pipeline.fetch env.toPrimitives reference).Asks (StoreOp.Bounded swaps collects) := by
  refine upload_bounded.bind ?_
  intro uploaded
  refine ((fetch_reads reference).bounded (fun _ reads => reads.bounded)).attempt.bind ?_
  exact fun _ => trivial

theorem fetchBatch_bounded (pipeline : Pipeline) (batch : List ObjectRef) :
    (pipeline.fetchBatch env.toPrimitives batch).Asks (StoreOp.Bounded swaps collects) := by
  induction batch generalizing pipeline with
  | nil => trivial
  | cons page batch ih =>
      refine (pipelineFetch_bounded pipeline page).bind ?_
      rintro ⟨bytes, fetched⟩
      cases bytes with
      | error error => trivial
      | ok bytes => exact (ih fetched).bind (fun _ => trivial)

theorem step_bounded (lists : List (List ObjectRef)) (pipeline : Pipeline) (op : MergeOp) :
    (pipeline.step env.toPrimitives lists op).Asks (StoreOp.Bounded swaps collects) := by
  cases op with
  | fetch reference =>
      show (pipeline.get env.toPrimitives lists reference).Asks _
      unfold Pipeline.get
      split
      · trivial
      · split
        · exact pipelineFetch_bounded pipeline reference
        · refine (fetchBatch_bounded pipeline _).bind ?_
          rintro ⟨fetched, pipeline⟩
          dsimp only
          split <;> trivial
  | send record =>
      refine upload_bounded.bind ?_
      intro uploaded
      dsimp only
      split
      · trivial
      · exact (choose_bounded 2).bind (fun _ => trivial)

theorem uploadRest_bounded (pipeline : Pipeline) :
    pipeline.uploadRest.Asks (StoreOp.Bounded swaps collects) := by
  refine (Prog.Asks.attempt (putAll_bounded ?_)).bind ?_
  · intro object member
    rcases List.mem_map.mp member with ⟨_, _, rfl⟩
    rfl
  · intro stored
    cases stored <;> trivial

theorem mergeRuns_bounded (runs : List (ObjectRef × Bytes)) (expectedKeys : UInt64) :
    (mergeRuns env.toPrimitives runs expectedKeys).Asks (StoreOp.Bounded swaps collects) := by
  apply Prog.asks_ofExcept_bind
  intro readers _
  refine ((pageLists_reads readers).bounded (fun _ reads => reads.bounded)).bind ?_
  intro lists
  refine (Prog.Asks.handle (step_bounded lists) _ _).bind ?_
  rintro ⟨produced, fed⟩
  refine (uploadRest_bounded _).bind ?_
  intro uploaded
  apply Prog.asks_ofExcept_bind
  intro summary _
  apply Prog.asks_ofExcept_bind
  intro root _
  split
  · trivial
  · refine (putAll_bounded ?_).bind (fun _ => trivial)
    intro object member
    rcases finish_keys member with ⟨kind, index, same⟩
    rw [same]
    rfl

theorem stageParent_bounded (previous : Option VersionedBytes) :
    (stageParent env previous).Asks (StoreOp.Bounded swaps collects) := by
  cases previous with
  | none => trivial
  | some previous =>
      refine Prog.Asks.bind ?_ (fun _ => trivial)
      apply Prog.asks_ofExcept_bind
      intro length _
      exact (put_bounded rfl).bind (fun _ => trivial)

theorem swap_bounded (previous : Option VersionedBytes) (next : Head) :
    (swap env previous next).Asks (StoreOp.Bounded True collects) := by
  refine (stageParent_bounded previous).bind ?_
  intro parent
  apply Prog.asks_ofExcept_bind
  intro bytes _
  apply Prog.asks_guard
  exact Prog.asks_request ⟨trivial, _, rfl⟩

theorem publishLoop_bounded {package : Package} {first last : BlockMeta} {run : Run} {attempts : Nat}
    {previous : Option (VersionedBytes × Head)} :
    (publishLoop env package first last run attempts previous).Asks (StoreOp.Bounded True collects) := by
  induction attempts generalizing previous with
  | zero => trivial
  | succ attempts ih =>
      refine (swap_bounded _ _).attempt.bind ?_
      intro swapped
      cases swapped with
      | ok value => trivial
      | error error =>
          refine (readHead_bounded _).bind ?_
          intro current
          split
          · split
            · trivial
            · split
              · exact ih
              · trivial
          · split <;> trivial
          · trivial

theorem publish_bounded (package : Package) (gate : PublicationGate) :
    (publish env package gate).Asks (StoreOp.Bounded True collects) := by
  unfold publish
  split
  · apply Prog.asks_ofExcept_bind
    intro _ _
    apply Prog.asks_ofExcept_bind
    intro _ _
    refine (readHead_bounded _).bind ?_
    intro previous
    split
    · trivial
    · apply Prog.asks_ofExcept_bind
      intro _ _
      apply Prog.asks_guard
      apply Prog.asks_ofExcept_bind
      intro _ _
      apply Prog.asks_ofExcept_bind
      intro records _
      exact (writeSorted_bounded records).bind (fun _ => publishLoop_bounded)
  · trivial

theorem compactLoop_bounded {chainId : UInt64} {planned : Head} {levels : List (Option Run)} {attempts : Nat} :
    (compactLoop env chainId planned levels attempts).Asks (StoreOp.Bounded True collects) := by
  induction attempts with
  | zero => trivial
  | succ attempts ih =>
      refine (readHead_bounded _).bind ?_
      intro found
      split
      · trivial
      · apply Prog.asks_guard
        refine (swap_bounded _ _).attempt.bind ?_
        intro swapped
        cases swapped with
        | ok value => trivial
        | error error => exact ih

theorem compactOnce_bounded (chainId : UInt64) :
    (compactOnce env chainId).Asks (StoreOp.Bounded True collects) := by
  refine (readHead_bounded _).bind ?_
  intro found
  dsimp only
  split
  · trivial
  · split
    · trivial
    · apply Prog.asks_ofExcept_bind
      intro planned _
      apply Prog.asks_guard
      apply Prog.asks_ofExcept_bind
      intro refs _
      refine now_bounded.bind ?_
      intro started
      refine (mergeRuns_bounded refs _).bind ?_
      intro built
      refine now_bounded.bind ?_
      intro finished
      apply Prog.asks_guard
      exact compactLoop_bounded

/-! Collections and readers. -/

theorem Directory.immutable_of_holds {directory : Directory} {key : Key} (holds : directory.holds key = true) :
    key.immutable = true := by
  cases directory <;> cases key <;> first | rfl | cases holds

theorem sweep_footprint {cutoff : Int} {dryRun : Bool} {fuel : Nat} {sweeping : Sweep}
    (unchecked : ∀ listed ∈ sweeping.unchecked, listed.key.immutable = true)
    (confirmed : ∀ listed ∈ sweeping.confirmed, listed.key.immutable = true) :
    Footprint swaps True (sweep cutoff dryRun fuel sweeping) := by
  induction fuel generalizing sweeping with
  | zero => trivial
  | succ fuel ih =>
      refine Footprint.bind (.of_asks (choose_bounded _)) ?_
      intro n
      dsimp only
      generalize n % (sweeping.unchecked.length + sweeping.confirmed.length) = k
      have fewer : ∀ listed ∈ sweeping.unchecked.eraseIdx k, listed.key.immutable = true :=
        fun listed member => unchecked listed (List.mem_of_mem_eraseIdx member)
      cases next : sweeping.unchecked[k]? with
      | some listed =>
          refine Footprint.bind (.of_asks (Prog.asks_request trivial)) ?_
          intro stamp
          split
          · exact ih fewer confirmed
          · split
            · exact ih fewer confirmed
            · refine ih fewer ?_
              intro other member
              rcases List.mem_append.mp member with old | new
              · exact confirmed other old
              · rw [List.mem_singleton.mp new]
                exact unchecked listed (List.mem_of_getElem? next)
      | none =>
          dsimp only
          cases doomed : sweeping.confirmed[k - sweeping.unchecked.length]? with
          | none => trivial
          | some listed =>
              have mine := confirmed listed (List.mem_of_getElem? doomed)
              refine Footprint.bind (.of_asks (Prog.asks_request ⟨trivial, mine⟩)) ?_
              exact fun _ => ih unchecked (fun other member => confirmed other (List.mem_of_mem_eraseIdx member))

theorem collectGarbage_footprint (chainId : UInt64) (keepHeads : Nat) (minAge : Time) (dryRun : Bool) :
    Footprint swaps True (collectGarbage env chainId keepHeads minAge dryRun) := by
  have reads : ∀ {head : Head} {live : List Key},
      (reachable env head keepHeads live).Asks (StoreOp.Bounded swaps True) :=
    (reachable_reads _ _ _).bounded (fun _ reads => reads.bounded)
  refine Footprint.bind (.of_asks now_bounded) ?_
  intro started
  refine Footprint.bind (.of_asks (readHead_bounded _)) ?_
  intro before
  dsimp only
  split
  · trivial
  · refine Footprint.bind (.of_asks reads) ?_
    intro live
    apply footprint_list
    intro objects inObjects
    apply footprint_list
    intro summaries inSummaries
    refine Footprint.bind (.of_asks (readHead_bounded _)) ?_
    intro after
    split
    · trivial
    · refine Footprint.bind (.of_asks reads) ?_
      intro live
      refine Footprint.bind (sweep_footprint ?_ nofun) (fun _ => trivial)
      intro listed member
      rcases List.mem_append.mp (List.mem_of_mem_filter (List.mem_of_mem_filter member)) with inside | inside
      · exact Directory.immutable_of_holds (inObjects listed inside)
      · exact Directory.immutable_of_holds (inSummaries listed inside)

theorem openReader_bounded (chainId : UInt64) :
    (Reader.open env chainId).Asks (StoreOp.Bounded swaps collects) := by
  refine (readHead_bounded _).bind ?_
  intro found
  cases found with
  | none => trivial
  | some found =>
      apply Prog.asks_ofExcept_bind
      intro runs _
      exact ⟨trivial, fun _ => trivial⟩

theorem account_queries (reader : Reader) (address : Address) (block : UInt64) :
    (reader.account env address block).Asks StoreOp.Queries :=
  accountIn_queries.bind (fun _ => trivial)

theorem storage_queries (reader : Reader) (address : Address) (slot : Hash32) (block : UInt64) :
    (reader.storage env address slot block).Asks StoreOp.Queries := by
  refine accountIn_queries.bind ?_
  rintro ⟨account, budget⟩
  cases account with
  | none => trivial
  | some account =>
      dsimp only
      split
      · trivial
      · refine (lookup_queries _).bind ?_
        rintro ⟨value, _⟩
        cases value with
        | none => trivial
        | some value => exact Prog.asks_ofExcept _

/-- Every call keeps within its bounds. -/
theorem Call.footprint (call : Call) : Footprint call.Swaps call.Collects (call.body env) := by
  cases call with
  | publish package gate => exact .of_asks (publish_bounded package gate)
  | compactOnce chainId => exact .of_asks (compactOnce_bounded chainId)
  | collectGarbage chainId keepHeads minAge dryRun =>
      exact collectGarbage_footprint chainId keepHeads minAge dryRun
  | openReader chainId => exact .of_asks (openReader_bounded chainId)
  | account reader address block =>
      exact .of_asks ((account_queries reader address block).bounded (fun _ queries => queries.bounded))
  | storage reader address slot block =>
      exact .of_asks ((storage_queries reader address slot block).bounded (fun _ queries => queries.bounded))
  | code reader address block =>
      exact .of_asks (code_queries.bounded (fun _ queries => queries.bounded))

end

/-! One operation of a call. -/

section

variable {env : Externals} {backend : Backend} {faulty : StoreOp → Prop} {owner : Call}
  {state after : ArchiveSystem} {op : StoreOp} {reply : op.Resp} {swaps collects : Prop}

theorem listing_of_step
    (stepped : (System.world env.toPrimitives backend faulty).step owner op state reply after) :
    Listing op () reply () := by
  obtain ⟨clock, _, outcome⟩ := stepped
  cases outcome with
  | done op =>
      cases op with
      | list directory =>
          intro listed same item member
          cases same
          exact (mem_list.mp member).1
      | _ => trivial
  | reordered directory listed same =>
      intro other replied item member
      cases replied
      exact (mem_list.mp (same.mem_iff.mp member)).1
  | chosen | evicted => trivial
  | lost op reply _ failed | unacknowledged op reply _ failed =>
      cases op with
      | list directory =>
          intro listed same
          obtain ⟨error, wrong⟩ := failed
          cases wrong.symm.trans same
      | _ => trivial

theorem System.content_without (state : ArchiveSystem) (key other : Key) :
    (state.without key).content other = if other = key then none else state.content other := by
  unfold System.content
  rw [System.lookup_without]
  split <;> rfl

/-- The head of every chain is the one last swapped in. -/
def System.HeadsLogged (state : ArchiveSystem) : Prop :=
  ∀ chainId, state.content (.head chainId) = ((state.commits chainId).getLast?).map Commit.bytes

theorem System.HeadsLogged.commit (logged : state.HeadsLogged) (chainId : UInt64) (bytes : Bytes) :
    (state.commit backend owner chainId bytes).HeadsLogged := by
  intro other
  rw [commits_commit, System.content_commit]
  by_cases same : other = chainId
  · subst same
    simp
  · rw [if_neg (fun heads => same (Key.head.inj heads)), if_neg same]
    exact logged other

theorem System.HeadsLogged.perform (logged : state.HeadsLogged) (bounded : op.Bounded swaps collects) :
    (state.perform env.toPrimitives backend owner op).2.HeadsLogged := by
  cases op with
  | putImmutable key bytes =>
      show (state.putImmutable backend key bytes).2.HeadsLogged
      rcases state.putImmutable_cases backend key bytes with
        ⟨same, _⟩ | ⟨_, inserted⟩ | ⟨entry, found, _, stamped⟩
      · rw [same]
        exact logged
      · rw [inserted]
        intro chainId
        rw [System.content_insert, if_neg (Key.head_ne_of_immutable bounded chainId)]
        exact logged chainId
      · rw [stamped]
        intro chainId
        rw [System.content_restamp found]
        exact logged chainId
  | compareAndSwap key expected bytes =>
      obtain ⟨_, chainId, rfl⟩ := bounded
      show (state.compareAndSwap env.toPrimitives backend owner _ expected bytes).2.HeadsLogged
      rcases state.compareAndSwap_cases env.toPrimitives backend owner chainId expected bytes with
        ⟨_, same⟩ | ⟨_, _, committed⟩
      · rw [same]
        exact logged
      · rw [committed]
        exact logged.commit chainId bytes
  | delete key =>
      intro chainId
      show (state.without key).content _ = _
      rw [System.content_without, if_neg (Key.head_ne_of_immutable bounded.2 chainId)]
      exact logged chainId
  | _ => exact logged

theorem System.HeadsLogged.step (logged : state.HeadsLogged) (bounded : op.Bounded swaps collects)
    (stepped : (System.world env.toPrimitives backend faulty).step owner op state reply after) :
    after.HeadsLogged := by
  rcases step_effect stepped with ⟨clock, rfl | rfl⟩
  · exact logged
  · have ticked : (state.tick clock).HeadsLogged := logged
    exact ticked.perform bounded

/-- What is stored under an immutable key stays as it is until it is deleted. -/
def Unreplaced (deleted : Prop) (state after : ArchiveSystem) : Prop :=
  ∀ key bytes, key.immutable = true → state.content key = some bytes →
    after.content key = some bytes ∨ after.content key = none ∧ deleted

theorem Unreplaced.refl (deleted : Prop) (state : ArchiveSystem) : Unreplaced deleted state state :=
  fun _ _ _ held => .inl held

theorem unreplaced_perform (bounded : op.Bounded swaps collects) :
    Unreplaced collects state (state.perform env.toPrimitives backend owner op).2 := by
  cases op with
  | putImmutable key bytes =>
      intro other held immutable found
      exact .inl ((state.putImmutable_kept backend bytes bounded).1.content immutable found)
  | compareAndSwap key expected bytes =>
      obtain ⟨_, chainId, rfl⟩ := bounded
      intro other held immutable found
      show (state.compareAndSwap env.toPrimitives backend owner _ expected bytes).2.content _ = _ ∨ _
      rcases state.compareAndSwap_cases env.toPrimitives backend owner chainId expected bytes with
        ⟨_, same⟩ | ⟨_, _, committed⟩
      · rw [same]
        exact .inl found
      · rw [committed]
        exact .inl ((Kept.commit backend owner state chainId bytes).content immutable found)
  | delete key =>
      intro other held immutable found
      show (state.without key).content _ = _ ∨ (state.without key).content _ = _ ∧ _
      rw [System.content_without]
      split
      · exact .inr ⟨rfl, bounded.1⟩
      · exact .inl found
  | _ => exact Unreplaced.refl collects state

theorem unreplaced_step (bounded : op.Bounded swaps collects)
    (stepped : (System.world env.toPrimitives backend faulty).step owner op state reply after) :
    Unreplaced collects state after := by
  rcases step_effect stepped with ⟨clock, rfl | rfl⟩
  · exact Unreplaced.refl collects state
  · show Unreplaced collects (state.tick clock) _
    exact unreplaced_perform bounded

end

/-! All schedules. -/

section

variable {env : Externals} {backend : Backend} {faulty : StoreOp → Prop}
  {enabled : ArchivePool → Call → Prop} {pool next : ArchivePool}

/-- Every task keeps within the bounds of its call. -/
def Pool.Bounded (pool : ArchivePool) : Prop :=
  ∀ task ∈ pool.tasks, Footprint task.call.Swaps task.call.Collects task.prog

theorem bounded_step (bounded : pool.Bounded)
    (stepped : Pool.Step (System.world env.toPrimitives backend faulty) (Call.body env) enabled pool next) :
    next.Bounded := by
  cases stepped with
  | start call allowed =>
      intro task member
      rcases List.mem_append.mp member with old | new
      · exact bounded task old
      · cases List.mem_singleton.mp new
        exact call.footprint
  | run index call op rest reply after found stepped =>
      intro task member
      rcases List.mem_or_eq_of_mem_set member with old | rfl
      · exact bounded task old
      · exact (bounded _ (List.mem_of_getElem? found)).2 reply () (listing_of_step stepped)
  | abandon index => exact fun task member => bounded task (List.mem_of_mem_eraseIdx member)

theorem headsLogged_step (bounded : pool.Bounded) (logged : pool.state.HeadsLogged)
    (stepped : Pool.Step (System.world env.toPrimitives backend faulty) (Call.body env) enabled pool next) :
    next.state.HeadsLogged := by
  cases stepped with
  | start call allowed => exact logged
  | run index call op rest reply after found stepped =>
      exact logged.step (bounded _ (List.mem_of_getElem? found)).1 stepped
  | abandon index => exact logged

theorem reachable_bounded
    (reached : Pool.Reachable (System.world env.toPrimitives backend faulty) (Call.body env) enabled
      System.empty pool) : pool.Bounded ∧ pool.state.HeadsLogged := by
  induction reached with
  | start => exact ⟨nofun, fun _ => rfl⟩
  | step _ stepped ih => exact ⟨bounded_step ih.1 stepped, headsLogged_step ih.1 ih.2 stepped⟩

/-- Whatever runs, fails, is abandoned or collected: the head of a chain is the last one swapped in. -/
theorem head_is_last_swapped
    (reached : Pool.Reachable (System.world env.toPrimitives backend faulty) (Call.body env) enabled
      System.empty pool) (chainId : UInt64) :
    pool.state.content (.head chainId) = ((pool.state.commits chainId).getLast?).map Commit.bytes :=
  (reachable_bounded reached).2 chainId

/-- Two publications and a third one about to swap: the head is that of the second. -/
theorem chainPool_head : chainPool.state.content (.head 1) = some secondHead.jsonBytes := by
  have reached : Pool.Reachable (System.world chainEnv.toPrimitives .memory (fun _ => True))
      (Call.body chainEnv) (Writing (fun _ => True)) System.empty chainPool := chainPool_reachable
  rw [head_is_last_swapped reached, ← List.getLast?_map, chainPool_commits.1]
  rfl

/-- An object or shard that is stored is never overwritten, and is gone after a step
only when a collection is under way. -/
theorem stored_until_collected
    (reached : Pool.Reachable (System.world env.toPrimitives backend faulty) (Call.body env) enabled
      System.empty pool)
    (stepped : Pool.Step (System.world env.toPrimitives backend faulty) (Call.body env) enabled pool next) :
    Unreplaced (∃ task ∈ pool.tasks, task.call.Collects) pool.state next.state := by
  cases stepped with
  | start call allowed => exact Unreplaced.refl _ pool.state
  | run index call op rest reply after found stepped =>
      have member := List.mem_of_getElem? found
      have kept := unreplaced_step ((reachable_bounded reached).1 _ member).1 stepped
      intro key bytes immutable held
      exact (kept key bytes immutable held).imp_right (fun gone => ⟨gone.1, _, member, gone.2⟩)
  | abandon index => exact Unreplaced.refl _ pool.state

/-- The swap of the third publication leaves the first head where the second one staged it. -/
theorem chainPool_parent_stored :
    ∃ next, Pool.Step (System.world chainEnv.toPrimitives .memory (fun _ => True)) (Call.body chainEnv)
        (Writing (fun _ => True)) chainPool next ∧
      next.state.content (.object (chainEnv.sha256 firstHead.jsonBytes)) = some firstHead.jsonBytes := by
  have reached : Pool.Reachable (System.world chainEnv.toPrimitives .memory (fun _ => True))
      (Call.body chainEnv) (Writing (fun _ => True)) System.empty chainPool := chainPool_reachable
  have staged : chainPool.state.content (.object (chainEnv.sha256 firstHead.jsonBytes)) =
      some firstHead.jsonBytes := by decide +kernel
  have last := chainPool_run.2
  unfold chainPool at last
  unfold chainLaunch at last
  obtain ⟨op, rest, _, member⟩ := Pool.launch_pending last
  have pending : (⟨chainCall 2, .call op rest⟩ : Task Call Call.Out StoreOp StoreOp.Resp Error) ∈
      chainPool.tasks := member
  obtain ⟨index, found⟩ := List.getElem?_of_mem pending
  have stepped : Pool.Step (System.world chainEnv.toPrimitives .memory (fun _ => True)) (Call.body chainEnv)
      (Writing (fun _ => True)) chainPool _ :=
    .run index _ op rest _ _ found (System.perform_step (chainCall 2) chainPool.state op)
  refine ⟨_, stepped, ?_⟩
  have unreplaced := stored_until_collected reached stepped
  rcases unreplaced (.object (chainEnv.sha256 firstHead.jsonBytes)) firstHead.jsonBytes rfl staged with
    kept | ⟨_, task, present, collects⟩
  · exact kept
  · have publishes : task.call ∈ [chainCall 0, chainCall 1, chainCall 2] :=
      List.mem_map_of_mem (f := Task.call) present
    simp only [List.mem_cons, List.not_mem_nil, or_false] at publishes
    rcases publishes with same | same | same <;> exact (same ▸ collects : Call.Collects (chainCall _)).elim

end

/-! The swap comes last. -/

section

variable {env : Externals}

/-- Whether a swap has been acknowledged. -/
def Swapping : (op : StoreOp) → Bool → op.Resp → Bool → Prop
  | .compareAndSwap .., _, reply, after => after = reply.isOk
  | _, before, _, after => after = before

/-- Nothing is asked after an acknowledged swap, and the program then succeeds. -/
abbrev SwapsLast {α : Type} (prog : StoreProg α) : Prop :=
  prog.Confined (fun _ swapped => swapped = false) Swapping
    (fun outcome swapped => swapped = true → outcome.isOk = true) false

theorem unswapped_of_asks {α : Type} {collects : Prop} {prog : StoreProg α}
    (asks : prog.Asks (StoreOp.Bounded False collects)) :
    prog.Confined (fun _ swapped => swapped = false) Swapping (fun _ swapped => swapped = false) false := by
  induction prog with
  | ret value => rfl
  | fail error => rfl
  | call op next ih =>
      refine ⟨rfl, ?_⟩
      intro reply after stepped
      cases op with
      | compareAndSwap key expected bytes => exact asks.1.1.elim
      | _ =>
          cases stepped
          exact ih reply (asks.2 reply)

theorem SwapsLast.after {α β : Type} {prog : StoreProg α} {next : α → StoreProg β}
    (asks : prog.Asks (StoreOp.Bounded False False)) (rest : ∀ value, SwapsLast (next value)) :
    SwapsLast (prog.bind next) := by
  apply Prog.Confined.bind
  apply (unswapped_of_asks asks).weaken
  rintro outcome _ rfl
  cases outcome with
  | ok value => exact rest value
  | error error => exact nofun

theorem swapsLast_ofExcept {α β : Type} {result : Result α} {next : α → StoreProg β}
    (rest : ∀ value, SwapsLast (next value)) : SwapsLast ((Prog.ofExcept result).bind next) :=
  .after (Prog.asks_ofExcept result) rest

theorem swapsLast_guard {α : Type} {condition : Prop} [Decidable condition] {error : Error} {prog : StoreProg α}
    (rest : SwapsLast prog) : SwapsLast (if condition then Prog.fail error else prog) := by
  split
  · exact nofun
  · exact rest

/-- A staged head is swapped in just when the swap is acknowledged. -/
theorem swap_confined (previous : Option VersionedBytes) (next : Head) :
    (swap env previous next).Confined (fun _ swapped => swapped = false) Swapping
      (fun outcome swapped => swapped = outcome.isOk) false := by
  have staging : (stageParent env previous).Asks (StoreOp.Bounded False False) := stageParent_bounded previous
  apply Prog.Confined.bind
  apply (unswapped_of_asks staging).weaken
  rintro staged _ rfl
  cases staged with
  | error error => rfl
  | ok parent =>
      apply Prog.confined_ofExcept_bind (fun _ => rfl)
      intro bytes _
      split
      · rfl
      · exact ⟨rfl, fun reply _ stepped => Prog.confined_ofExcept stepped⟩

/-- An attempted swap, and what is done when it fails. -/
theorem swapsLast_attempt {α : Type} (previous : Option VersionedBytes) (staged : Head)
    {next : Result Unit → StoreProg α} (done : ∃ value, next (.ok ()) = .ret value)
    (rest : ∀ error, SwapsLast (next (.error error))) :
    SwapsLast ((Prog.attempt (swap env previous staged)).bind next) := by
  apply Prog.Confined.bind
  apply Prog.Confined.attempt
  apply (swap_confined previous staged).weaken
  rintro outcome _ rfl
  cases outcome with
  | ok value =>
      obtain ⟨result, finished⟩ := done
      show (next (.ok ())).Confined _ _ _ _
      rw [finished]
      exact fun _ => rfl
  | error error => exact rest error

theorem publishLoop_swapsLast {package : Package} {first last : BlockMeta} {run : Run} {attempts : Nat}
    {previous : Option (VersionedBytes × Head)} :
    SwapsLast (publishLoop env package first last run attempts previous) := by
  induction attempts generalizing previous with
  | zero => exact nofun
  | succ attempts ih =>
      refine swapsLast_attempt _ _ ?_ ?_
      · exact ⟨_, rfl⟩
      intro error
      apply SwapsLast.after (readHead_bounded _)
      intro current
      split
      · split
        · exact nofun
        · split
          · exact ih
          · exact nofun
      · split <;> exact nofun
      · exact nofun

/-- A publication that has swapped its head does nothing more and succeeds: one that fails has not. -/
theorem publish_swaps_last (package : Package) (gate : PublicationGate) :
    SwapsLast (publish env package gate) := by
  unfold publish
  split
  · apply swapsLast_ofExcept
    intro _
    apply swapsLast_ofExcept
    intro _
    apply SwapsLast.after (readHead_bounded _)
    intro previous
    split
    · exact nofun
    · apply swapsLast_ofExcept
      intro _
      apply swapsLast_guard
      apply swapsLast_ofExcept
      intro _
      apply swapsLast_ofExcept
      intro records
      exact SwapsLast.after (writeSorted_bounded records) (fun _ => publishLoop_swapsLast)
  · exact nofun

theorem compactLoop_swapsLast {chainId : UInt64} {planned : Head} {levels : List (Option Run)} {attempts : Nat} :
    SwapsLast (compactLoop env chainId planned levels attempts) := by
  induction attempts with
  | zero => exact nofun
  | succ attempts ih =>
      apply SwapsLast.after (readHead_bounded _)
      intro found
      split
      · exact nofun
      · apply swapsLast_guard
        refine swapsLast_attempt _ _ ?_ (fun _ => ih)
        exact ⟨_, rfl⟩

/-- The same of a compaction. -/
theorem compactOnce_swaps_last (chainId : UInt64) : SwapsLast (compactOnce env chainId) := by
  apply SwapsLast.after (readHead_bounded _)
  intro found
  split
  · exact nofun
  · split
    · exact nofun
    · apply swapsLast_ofExcept
      intro planned
      apply swapsLast_guard
      apply swapsLast_ofExcept
      intro refs
      apply SwapsLast.after now_bounded
      intro started
      apply SwapsLast.after (mergeRuns_bounded refs _)
      intro built
      apply SwapsLast.after now_bounded
      intro finished
      apply swapsLast_guard
      exact compactLoop_swapsLast

end

/-! What a collection deletes. -/

section

/-- What a collection has learned: when it started, and the dates it was told. -/
structure Watch where
  started : Option Time
  dates : List (Key × Time)

variable {env : Externals} {dryRun : Bool} {minAge started : Time} {watch : Watch}

def Watching : (op : StoreOp) → Watch → op.Resp → Watch → Prop
  | .now, watch, reply, after => after = { watch with started := some reply }
  | .modified key, watch, reply, after =>
      after = { watch with dates := watch.dates ++ reply.toOption.join.toList.map (fun date => (key, date)) }
  | _, watch, _, after => after = watch

/-- The object was of age when its date was asked for. -/
def Watch.Aged (minAge : Time) (watch : Watch) (key : Key) : Prop :=
  ∃ started date, watch.started = some started ∧ (key, date) ∈ watch.dates ∧
    (date : Int) ≤ (started : Int) - (minAge : Int)

/-- Only objects known to be of age are deleted, and none in a dry run. -/
def Rechecked (dryRun : Bool) (minAge : Time) : StoreOp → Watch → Prop
  | .delete key, watch => dryRun = false ∧ watch.Aged minAge key
  | _, _ => True

/-- What was known of an object is still known when more dates are. -/
theorem Watch.Aged.later {key : Key} (aged : watch.Aged minAge key) (more : List (Key × Time)) :
    Watch.Aged minAge ⟨watch.started, watch.dates ++ more⟩ key := by
  obtain ⟨start, date, known, member, old⟩ := aged
  exact ⟨start, date, known, List.mem_append_left _ member, old⟩

theorem watched_reads {α β : Type} {prog : StoreProg α} {next : α → StoreProg β}
    (reads : prog.Asks StoreOp.Reads)
    (rest : ∀ value, (next value).Confined (Rechecked dryRun minAge) Watching (fun _ _ => True) watch) :
    (prog.bind next).Confined (Rechecked dryRun minAge) Watching (fun _ _ => True) watch := by
  induction prog with
  | ret value => exact rest value
  | fail error => trivial
  | call op tail ih =>
      cases op with
      | getBounded | readMutableBounded =>
          refine ⟨trivial, ?_⟩
          rintro reply _ rfl
          exact ih reply (reads.2 reply)
      | _ => exact reads.1.elim

theorem watched_choose {α : Type} {bound : Nat} {next : Nat → StoreProg α}
    (rest : ∀ n, (next n).Confined (Rechecked dryRun minAge) Watching (fun _ _ => True) watch) :
    ((choose bound).bind next).Confined (Rechecked dryRun minAge) Watching (fun _ _ => True) watch := by
  refine ⟨trivial, ?_⟩
  rintro n _ rfl
  exact rest n

theorem watched_list {α : Type} {directory : Directory} {next : List Listed → StoreProg α}
    (rest : ∀ listed, (next listed).Confined (Rechecked dryRun minAge) Watching (fun _ _ => True) watch) :
    ((listDirectory directory).bind next).Confined (Rechecked dryRun minAge) Watching (fun _ _ => True) watch := by
  refine ⟨trivial, ?_⟩
  rintro reply _ rfl
  exact Prog.confined_ofExcept_bind (fun _ => trivial) (fun listed _ => rest listed)

theorem sweep_rechecked {fuel : Nat} {sweeping : Sweep} (since : watch.started = some started)
    (confirmed : ∀ listed ∈ sweeping.confirmed, dryRun = false ∧ watch.Aged minAge listed.key) :
    (sweep ((started : Int) - (minAge : Int)) dryRun fuel sweeping).Confined (Rechecked dryRun minAge) Watching
      (fun _ _ => True) watch := by
  induction fuel generalizing sweeping watch with
  | zero => trivial
  | succ fuel ih =>
      apply watched_choose
      intro n
      dsimp only
      generalize n % (sweeping.unchecked.length + sweeping.confirmed.length) = k
      cases sweeping.unchecked[k]? with
      | some listed =>
          refine ⟨trivial, ?_⟩
          rintro reply _ rfl
          apply Prog.confined_ofExcept_bind (fun _ => trivial)
          rintro stamp rfl
          have still : ∀ other ∈ sweeping.confirmed, dryRun = false ∧ Watch.Aged minAge
              ⟨watch.started, watch.dates ++ stamp.toList.map (fun date => (listed.key, date))⟩ other.key :=
            fun other member => ⟨(confirmed other member).1, (confirmed other member).2.later _⟩
          split
          · exact ih since still
          · next young =>
              split
              · exact ih since still
              · next deletes =>
                  refine ih ?_ ?_
                  · exact since
                  intro other member
                  rcases List.mem_append.mp member with old | new
                  · exact still other old
                  · cases List.mem_singleton.mp new
                    refine ⟨Bool.eq_false_iff.mpr deletes, ?_⟩
                    cases stamp with
                    | none => exact absurd rfl young
                    | some date =>
                        have aged : ¬ (date : Int) > (started : Int) - (minAge : Int) := by
                          simpa using young
                        have told := List.mem_append_right watch.dates (List.mem_singleton_self (listed.key, date))
                        exact ⟨started, date, since, told, Int.not_lt.mp aged⟩
      | none =>
          cases doomed : sweeping.confirmed[k - sweeping.unchecked.length]? with
          | none => trivial
          | some listed =>
              refine ⟨confirmed listed (List.mem_of_getElem? doomed), ?_⟩
              rintro reply _ rfl
              apply Prog.confined_ofExcept_bind (fun _ => trivial)
              intro _ _
              exact ih since (fun other member => confirmed other (List.mem_of_mem_eraseIdx member))

/-- Whatever the store replies, a collection deletes only objects whose date it was told to be
at least the minimum age before its start, and in a dry run it deletes nothing. -/
theorem collection_rechecks (chainId : UInt64) (keepHeads : Nat) (minAge : Time) (dryRun : Bool) :
    (collectGarbage env chainId keepHeads minAge dryRun).Confined (Rechecked dryRun minAge) Watching
      (fun _ _ => True) ⟨none, []⟩ := by
  refine ⟨trivial, ?_⟩
  rintro started _ rfl
  apply watched_reads (readHead_reads chainId)
  intro before
  split
  · trivial
  · apply watched_reads (reachable_reads _ _ _)
    intro live
    apply watched_list
    intro objects
    apply watched_list
    intro summaries
    apply watched_reads (readHead_reads chainId)
    intro after
    split
    · trivial
    · apply watched_reads (reachable_reads _ _ _)
      intro live
      apply Prog.Confined.bind
      refine Prog.Confined.weaken (sweep_rechecked rfl ?_) ?_
      · exact nofun
      · intro outcome _ _
        cases outcome <;> trivial

end

end Fossil

import Fossil.Abandoned
import Fossil.Feeding

/-! The read-ahead of a merge is transparent.

A merge that reads its pages ahead and one that fetches every object when it is asked
for both succeed exactly when the inputs can be merged from the store as it was before,
and then with the same result. -/

namespace Fossil

section

variable (env : Primitives)

/-- The end of a merge once its producer has ended. -/
def Pipeline.close (fed : Pipeline) (produced : Result SummaryBuilder) : StoreProg BuiltRun := do
  let uploaded ← (fed.finish env).2.uploadRest
  conclude env produced (fed.finish env).1 uploaded

/-- The tasks of a merge over opened inputs, with the producer answered by `step`. -/
def mergeThrough (step : Pipeline → (op : MergeOp) → StoreProg (op.Resp × Pipeline)) (readers : List RunReader)
    (fuel : Nat) (expectedKeys : UInt64) : StoreProg BuiltRun := do
  let (produced, fed) ← Prog.handle step Pipeline.start (produce env readers fuel expectedKeys)
  fed.close env produced

theorem mergeRuns_through (runs : List (ObjectRef × Bytes)) (expectedKeys : UInt64) :
    mergeRuns env runs expectedKeys = (do
      let readers ← decodeRuns env runs
      let lists ← pageLists env readers
      mergeThrough env (Pipeline.step env lists) readers (mergeFuel lists) expectedKeys) :=
  rfl

/-- The pipeline without its read-ahead: every object is fetched when it is asked for. -/
def Pipeline.directStep (pipeline : Pipeline) : (op : MergeOp) → StoreProg (op.Resp × Pipeline)
  | .fetch reference => pipeline.fetch env reference
  | .send record => pipeline.send env record

/-- The merge without the read-ahead, and so without the page lists it works from. -/
def mergeDirect (fuel : Nat) (runs : List (ObjectRef × Bytes)) (expectedKeys : UInt64) : StoreProg BuiltRun := do
  let readers ← decodeRuns env runs
  mergeThrough env (Pipeline.directStep env) readers fuel expectedKeys

/-- The pipeline after these requests and records. -/
def Pipeline.driven (lists : List (List ObjectRef)) : Pipeline → List MergeOp → StoreProg Pipeline
  | pipeline, [] => .ret pipeline
  | pipeline, op :: rest => do
      let (_, pipeline) ← pipeline.step env lists op
      pipeline.driven lists rest

/-- The reply of the read-ahead to a request that comes after these. -/
def getAfter (lists : List (List ObjectRef)) (before : List MergeOp) (reference : ObjectRef) :
    StoreProg (Result Bytes) := do
  let pipeline ← Pipeline.start.driven env lists before
  let (reply, _) ← pipeline.get env lists reference
  .ret reply

end

section

variable {env : Externals} {backend : Backend} {owner : Call} {base state : ArchiveSystem}
  {pipeline : Pipeline} {sent : List Record}

/-- Whatever the store has under a digest now was there before the merge or is its own. -/
theorem Pipeline.Works.readStep {reference : ObjectRef} {reply : Result Bytes}
    (works : pipeline.Works env.toPrimitives base sent state)
    (shelved : ∀ bytes, reply = .ok bytes → Shelved env.toPrimitives state reference.digest bytes) :
    ReadStep env.toPrimitives base sent reference () reply () := by
  intro bytes done
  obtain ⟨held, accepts⟩ := shelved bytes done
  refine ⟨accepts, (works.grown.fresh _ _ held).imp_right ?_⟩
  intro new
  obtain ⟨object, member, same⟩ := List.mem_map.mp new
  exact ⟨object, member, congrArg Prod.snd same⟩

variable (env backend owner base) in
/-- Reads that are answered from the store, and succeed on what was stored before. -/
structure Fetches (step : Pipeline → (op : MergeOp) → StoreProg (op.Resp × Pipeline)) (complete : Prop) : Prop where
  fetch : ∀ {pipeline sent state reference}, pipeline.Works env.toPrimitives base sent state →
    Working env backend owner (fun result after =>
      (∀ bytes, result.1 = .ok bytes → Shelved env.toPrimitives after reference.digest bytes) ∧
      (complete → ∀ bytes, base.view env.toPrimitives backend owner reference = .ok bytes →
        result.1 = .ok bytes) ∧
      result.2.Works env.toPrimitives base sent after)
      (step pipeline (.fetch reference)) state
  send : ∀ pipeline record, step pipeline (.send record) = pipeline.send env.toPrimitives record

theorem fetches_direct : Fetches env backend owner base (Pipeline.directStep env.toPrimitives) True := by
  refine ⟨?_, fun _ _ => rfl⟩
  intro pipeline sent state reference works
  apply (working_fetch works).weaken
  rintro outcome after ⟨result, rfl, found, works', _⟩
  refine ⟨result, rfl, fun bytes done => shelved_of_view ((found bytes).mp done), ?_, works'⟩
  exact fun _ bytes known => (found bytes).mpr (Preserves.view works'.grown.kept known)

theorem fetches_readAhead (lists : List (List ObjectRef)) :
    Fetches env backend owner base (Pipeline.step env.toPrimitives lists)
      (∀ list ∈ lists, ∀ page ∈ list, ∃ bytes, base.view env.toPrimitives backend owner page = .ok bytes) := by
  refine ⟨?_, fun _ _ => rfl⟩
  intro pipeline sent state reference works
  have preserves : Preserves base state := works.grown.kept
  apply (working_get works).weaken
  rintro outcome after ⟨result, rfl, shelved, completes, works', _⟩
  refine ⟨result, rfl, shelved, ?_, works'⟩
  intro stored bytes known
  refine completes ?_ bytes (preserves.view known)
  intro list member page inside
  obtain ⟨bytes, here⟩ := stored list member page inside
  exact ⟨bytes, preserves.view here⟩

/-! Soundness. -/

variable {step : Pipeline → (op : MergeOp) → StoreProg (op.Resp × Pipeline)} {complete : Prop}

theorem Fetches.openStep (fetches : Fetches env backend owner base step complete) (op : MergeOp)
    (works : pipeline.Works env.toPrimitives base sent state) :
    (step pipeline op).Follows ((calm env.toPrimitives backend).step owner)
      (fun result after => ∃ reply own sent', result = .ok (reply, own) ∧
        OpenStep env.toPrimitives base op sent reply sent' ∧ own.Works env.toPrimitives base sent' after) state := by
  cases op with
  | fetch reference =>
      apply (fetches.fetch works).weaken
      rintro outcome after ⟨⟨reply, own⟩, rfl, shelved, _, works'⟩
      exact ⟨reply, own, sent, rfl, ⟨works'.readStep shelved, rfl⟩, works'⟩
  | send record =>
      rw [fetches.send]
      apply (working_send works).weaken
      rintro outcome after ⟨⟨reply, own⟩, rfl, works', _⟩
      exact ⟨reply, own, sent ++ [record], rfl, rfl, works'⟩

/-- The inputs can be merged from this store, and this is the outcome. -/
def Mergeable (env : Externals) (backend : Backend) (owner : Call) (base : ArchiveSystem)
    (readers : List RunReader) (expectedKeys : UInt64) (built : BuiltRun) : Prop :=
  ∃ fuel sent summary root,
    (produce env.toPrimitives readers fuel expectedKeys).Reaches
      (SoundStep (base.view env.toPrimitives backend owner)) [] summary sent ∧
    (RunBuilder.build env.toPrimitives sent).collect.2 = .ok root ∧
    ¬ Conflict (objectPuts (RunBuilder.build env.toPrimitives sent).collect.1 ++
      summary.finish env.toPrimitives root.digest) base ∧
    built = ⟨root, smallBytes [] (RunBuilder.build env.toPrimitives sent).collect.1, summary.keys, summary.shards⟩

theorem not_conflict_of_stored {puts : List (Key × Bytes)} (stored : AllStored puts state)
    (preserves : Preserves base state) : ¬ Conflict puts base := by
  rintro ⟨put, member, bytes, different, held | other⟩
  · exact different (Option.some.inj ((preserves _ _ held).symm.trans (stored put member)))
  · exact different (Option.some.inj ((stored _ other).symm.trans (stored put member)))

/-- How a merge ends once its tasks have: with the run of what was sent, unless something
else is stored in its place. -/
theorem follows_conclude {produced : Result SummaryBuilder} {built : Result ObjectRef}
    (ended : pipeline.Ended env.toPrimitives base sent built state) (empty : pipeline.pending = []) :
    (conclude env.toPrimitives produced built pipeline).Follows ((calm env.toPrimitives backend).step owner)
      (fun outcome _ => ∀ value, outcome = .ok value ↔ ∃ summary root, produced = .ok summary ∧
        (RunBuilder.build env.toPrimitives sent).collect.2 = .ok root ∧
        ¬ Conflict (objectPuts (RunBuilder.build env.toPrimitives sent).collect.1 ++
          summary.finish env.toPrimitives root.digest) base ∧
        value = ⟨root, smallBytes [] (RunBuilder.build env.toPrimitives sent).collect.1,
          summary.keys, summary.shards⟩) state := by
  have running : ∀ {more}, ¬ Conflict (objectPuts (RunBuilder.build env.toPrimitives sent).collect.1 ++ more) base →
      pipeline.stopped = none := by
    intro more free
    by_contra stopped
    exact free ((ended.halted stopped).mono (fun _ member => List.mem_append_left _ member))
  unfold conclude
  apply Prog.follows_ofExcept_bind
  · rintro error rfl value
    exact ⟨nofun, fun ⟨_, _, wrong, _⟩ => nomatch wrong⟩
  rintro summary rfl
  apply Prog.follows_ofExcept_bind
  · rintro error rfl value
    refine ⟨nofun, ?_⟩
    rintro ⟨_, root, ⟨⟩, granted, free, _⟩
    cases granted.symm.trans (ended.building (running free)).1
  rintro root rfl
  cases stopped : pipeline.stopped with
  | some error =>
      intro value
      refine ⟨nofun, ?_⟩
      rintro ⟨_, _, ⟨⟩, _, free, _⟩
      cases stopped.symm.trans (running free)
  | none =>
      obtain ⟨granted, bytes, kept⟩ := ended.building stopped
      have grown : Grown (objectPuts (RunBuilder.build env.toPrimitives sent).collect.1 ++
          summary.finish env.toPrimitives root.digest) base state :=
        ended.grown.mono (fun _ member => List.mem_append_left _ member)
      apply Prog.Follows.bind
      apply (follows_putAll (Nat.le_refl _) (fun _ member => List.mem_append_right _ member) grown).weaken
      rintro outcome after ⟨moved, ⟨rfl, stored⟩ | ⟨⟨error, rfl⟩, conflict⟩⟩
      · intro value
        constructor
        · rintro ⟨⟩
          refine ⟨summary, root, rfl, granted, ?_, by rw [bytes]⟩
          apply not_conflict_of_stored _ (Preserves.trans ended.grown.kept moved.kept)
          intro put member
          rcases List.mem_append.mp member with mapped | piece
          · obtain ⟨object, inside, rfl⟩ := List.mem_map.mp mapped
            rcases kept object inside with queued | held
            · rw [empty] at queued
              cases queued
            · exact moved.kept _ _ held
          · exact stored put piece
        · rintro ⟨_, root', ⟨⟩, granted', _, rfl⟩
          cases granted.symm.trans granted'
          rw [bytes]
      · intro value
        refine ⟨nofun, ?_⟩
        rintro ⟨_, root', ⟨⟩, granted', free, _⟩
        cases granted.symm.trans granted'
        exact absurd conflict free

theorem follows_close {fed : Pipeline} {produced : Result SummaryBuilder}
    (works : fed.Works env.toPrimitives base sent state) :
    (fed.close env.toPrimitives produced).Follows ((calm env.toPrimitives backend).step owner)
      (fun outcome _ => ∀ value, outcome = .ok value ↔ ∃ summary root, produced = .ok summary ∧
        (RunBuilder.build env.toPrimitives sent).collect.2 = .ok root ∧
        ¬ Conflict (objectPuts (RunBuilder.build env.toPrimitives sent).collect.1 ++
          summary.finish env.toPrimitives root.digest) base ∧
        value = ⟨root, smallBytes [] (RunBuilder.build env.toPrimitives sent).collect.1,
          summary.keys, summary.shards⟩) state := by
  apply Prog.Follows.bind
  apply (working_uploadRest works.finish).weaken
  rintro outcome after ⟨uploaded, rfl, empty, ended⟩
  exact follows_conclude ended empty

/-- A merge that succeeds has merged its inputs as they were stored before. -/
theorem Fetches.sound (fetches : Fetches env backend owner base step complete) (lossless : env.Lossless)
    {readers : List RunReader} {fuel : Nat} {expectedKeys : UInt64} {clock : Time} :
    (mergeThrough env.toPrimitives step readers fuel expectedKeys).Follows
      ((calm env.toPrimitives backend).step owner)
      (fun outcome _ => ∀ built, outcome = .ok built →
        Mergeable env backend owner base readers expectedKeys built) (base.tick clock) := by
  have tracked := Prog.Follows.confined (@tracks_produce _ backend owner base lossless readers fuel expectedKeys)
  apply Prog.Follows.bind
  refine (tracked.handle_follows (fun sent (own : Pipeline) now => own.Works env.toPrimitives base sent now)
    (fun op sent own now _ works => fetches.openStep op works)
    (Pipeline.works_start ((Grown.refl base).tick clock))).weaken ?_
  rintro outcome fedState ⟨produced, fed, sent, rfl, reaches, works⟩
  rw [Prog.resume]
  apply (follows_close works).weaken
  intro outcome _ decides value done
  obtain ⟨summary, root, rfl, granted, free, rfl⟩ := (decides value).mp done
  exact ⟨fuel, sent, summary, root, reaches summary rfl, granted, free, rfl⟩

/-! Completeness. -/

theorem reaches_sent {α : Type} {replies : ObjectRef → Result Bytes} {prog : MergeProg α} {after : List Record}
    {value : α} (reaches : prog.Reaches (SoundStep replies) sent value after) : sent <+: after := by
  induction prog generalizing sent with
  | ret result => exact reaches.2 ▸ List.prefix_rfl
  | fail error => exact reaches.elim
  | call op next ih =>
      obtain ⟨reply, middle, stepped, rest⟩ := reaches
      have later := ih reply rest
      cases op with
      | fetch reference => exact stepped.2 ▸ later
      | send record => exact (List.prefix_append sent [record]).trans (stepped.2 ▸ later)

/-- The tasks let a producer through that has what it reads stored and what it sends accepted. -/
theorem Fetches.handle_reaches {α : Type} {prog : MergeProg α} {value : α} {merged : List Record}
    {objects : List EncodedObject} {root : ObjectRef} (fetches : Fetches env backend owner base step complete)
    (holds : complete) (granted : (RunBuilder.build env.toPrimitives merged).collect = (objects, .ok root))
    (free : ¬ Conflict (objectPuts objects) base)
    (reaches : prog.Reaches (SoundStep (base.view env.toPrimitives backend owner)) sent value merged)
    (works : pipeline.Works env.toPrimitives base sent state) :
    (Prog.handle step pipeline prog).Follows ((calm env.toPrimitives backend).step owner)
      (fun outcome after => ∃ fed, outcome = .ok (.ok value, fed) ∧
        fed.Works env.toPrimitives base merged after) state := by
  induction prog generalizing pipeline sent state with
  | ret result =>
      obtain ⟨rfl, rfl⟩ := reaches
      exact ⟨pipeline, rfl, works⟩
  | fail error => exact reaches.elim
  | call op next ih =>
      obtain ⟨reply, middle, stepped, rest⟩ := reaches
      apply Prog.Follows.bind
      cases op with
      | fetch reference =>
          obtain ⟨⟨same, bytes, done⟩, rfl⟩ := stepped
          apply (fetches.fetch works).weaken
          rintro outcome after ⟨⟨answer, fetched⟩, rfl, _, completes, works'⟩
          have known := completes holds bytes (same.symm.trans done)
          dsimp only at known
          rw [known, ← done]
          exact ih reply rest works'
      | send record =>
          obtain ⟨rfl, rfl⟩ := stepped
          have before := (List.prefix_append sent [record]).trans (reaches_sent rest)
          obtain ⟨⟨building, pushed⟩, among⟩ := pushAll_before granted before
          rw [fetches.send]
          apply (working_send works).weaken
          rintro outcome after ⟨⟨answer, own⟩, rfl, works', _, accepts⟩
          have accepted := accepts building pushed (fun conflict => free (conflict.mono (objectPuts_subset among)))
          dsimp only at accepted
          rw [accepted]
          exact ih (.ok ()) rest works'

/-- What can be merged is merged, however the reads are answered. -/
theorem Fetches.completes {readers : List RunReader} {fuel : Nat} {expectedKeys : UInt64} {clock : Time}
    {summary : SummaryBuilder} {root : ObjectRef} (fetches : Fetches env backend owner base step complete)
    (holds : complete)
    (reaches : (produce env.toPrimitives readers fuel expectedKeys).Reaches
      (SoundStep (base.view env.toPrimitives backend owner)) [] summary sent)
    (granted : (RunBuilder.build env.toPrimitives sent).collect.2 = .ok root)
    (free : ¬ Conflict (objectPuts (RunBuilder.build env.toPrimitives sent).collect.1 ++
      summary.finish env.toPrimitives root.digest) base) :
    (mergeThrough env.toPrimitives step readers fuel expectedKeys).Follows
      ((calm env.toPrimitives backend).step owner)
      (fun outcome _ => outcome = .ok ⟨root, smallBytes [] (RunBuilder.build env.toPrimitives sent).collect.1,
        summary.keys, summary.shards⟩) (base.tick clock) := by
  have objects : ¬ Conflict (objectPuts (RunBuilder.build env.toPrimitives sent).collect.1) base :=
    fun conflict => free (conflict.mono (fun _ member => List.mem_append_left _ member))
  apply Prog.Follows.bind
  apply (fetches.handle_reaches holds (Prod.ext rfl granted) objects reaches
    (Pipeline.works_start ((Grown.refl base).tick clock))).weaken
  rintro outcome fedState ⟨fed, rfl, works⟩
  rw [Prog.resume]
  apply (follows_close works).weaken
  exact fun outcome _ decides => (decides _).mpr ⟨summary, root, rfl, granted, free, rfl⟩

theorem mergeRuns_sound (lossless : env.Lossless) {runs : List (ObjectRef × Bytes)} {expectedKeys : UInt64}
    {readers : List RunReader} (opened : decodeRuns env.toPrimitives runs = .ok readers) :
    (mergeRuns env.toPrimitives runs expectedKeys).Follows ((calm env.toPrimitives backend).step owner)
      (fun outcome _ => ∀ built, outcome = .ok built →
        Mergeable env backend owner base readers expectedKeys built) base := by
  rw [mergeRuns_through, opened, Prog.bind_eq, Prog.liftM_eq, Prog.ofExcept_ok, Prog.ret_bind]
  apply Prog.Follows.bind
  apply follows_reads base (pageLists_reads readers)
  intro clock _
  cases ((pageLists env.toPrimitives readers).run (base.replies env.toPrimitives backend owner)).2 with
  | error error => exact fun _ => nofun
  | ok lists =>
      rw [Prog.resume]
      exact (fetches_readAhead lists).sound lossless

theorem mergeRuns_merges {runs : List (ObjectRef × Bytes)} {expectedKeys : UInt64} {readers : List RunReader}
    {built : BuiltRun} (opened : decodeRuns env.toPrimitives runs = .ok readers)
    (mergeable : Mergeable env backend owner base readers expectedKeys built) :
    (mergeRuns env.toPrimitives runs expectedKeys).Follows ((calm env.toPrimitives backend).step owner)
      (fun outcome _ => outcome = .ok built) base := by
  obtain ⟨fuel, sent, summary, root, reaches, granted, free, rfl⟩ := mergeable
  obtain ⟨⟨lists, listed, stored, room⟩, refuel⟩ := produce_listed reaches
  rw [mergeRuns_through, opened, Prog.bind_eq, Prog.liftM_eq, Prog.ofExcept_ok, Prog.ret_bind]
  apply Prog.Follows.bind
  apply follows_reads base (pageLists_reads readers)
  intro clock _
  rw [listed, Prog.resume]
  exact (fetches_readAhead lists).completes stored (refuel _ room) granted free

theorem mergeDirect_merges {runs : List (ObjectRef × Bytes)} {expectedKeys : UInt64} {readers : List RunReader}
    {built : BuiltRun} (opened : decodeRuns env.toPrimitives runs = .ok readers)
    (mergeable : Mergeable env backend owner base readers expectedKeys built) :
    ∃ enough, ∀ fuel, enough ≤ fuel → (mergeDirect env.toPrimitives fuel runs expectedKeys).Follows
      ((calm env.toPrimitives backend).step owner) (fun outcome _ => outcome = .ok built) base := by
  obtain ⟨_, sent, summary, root, reaches, granted, free, rfl⟩ := mergeable
  obtain ⟨_, refuel⟩ := produce_listed reaches
  refine ⟨sent.length + 1, ?_⟩
  intro fuel enough
  rw [mergeDirect, opened, Prog.bind_eq, Prog.liftM_eq, Prog.ofExcept_ok, Prog.ret_bind]
  exact fetches_direct.completes trivial (refuel fuel enough) granted free

/-! Single requests. -/

theorem working_driven {lists : List (List ObjectRef)} {before : List MergeOp}
    (works : pipeline.Works env.toPrimitives base sent state) :
    Working env backend owner (fun driven after => ∃ sent', driven.Works env.toPrimitives base sent' after)
      (pipeline.driven env.toPrimitives lists before) state := by
  induction before generalizing pipeline sent state with
  | nil => exact ⟨pipeline, rfl, sent, works⟩
  | cons op before ih =>
      apply Prog.Follows.bind
      apply ((fetches_readAhead lists).openStep op works).weaken
      rintro outcome after ⟨reply, own, sent', rfl, _, works'⟩
      exact ih works'

theorem Shelved.view_iff {reference : ObjectRef} {bytes : Bytes}
    (shelved : Shelved env.toPrimitives state reference.digest bytes) :
    state.view env.toPrimitives backend owner reference = .ok bytes ↔
      bytes.length = reference.length.toNat := by
  obtain ⟨held, other, same, valid, length, digest⟩ := shelved
  constructor
  · exact fun found => (view_eq_ok.mp found).1.2.1
  · intro sized
    rw [same, ← length, sized] at valid
    exact view_eq_ok.mpr ⟨⟨valid, sized, digest.trans same⟩, held⟩

theorem getAfter_shelved (lists : List (List ObjectRef)) (before : List MergeOp) (reference : ObjectRef) :
    (getAfter env.toPrimitives lists before reference).Follows ((calm env.toPrimitives backend).step owner)
      (fun outcome after => ∀ bytes, outcome = .ok (.ok bytes) →
        Shelved env.toPrimitives after reference.digest bytes) base := by
  apply Prog.Follows.bind
  apply (working_driven (Pipeline.works_start (Grown.refl base))).weaken
  rintro outcome middle ⟨driven, rfl, sent, works⟩
  rw [Prog.resume]
  apply Prog.Follows.bind
  apply (working_get works).weaken
  rintro outcome after ⟨⟨reply, own⟩, rfl, shelved, _⟩
  rintro bytes ⟨⟩
  exact shelved bytes rfl

/-- Merging with the read-ahead and merging with direct fetches agree on every store: neither
schedule nor store tells them apart, and a reply of the read-ahead is what is stored under the
digest of the request, so what a fetch of it returns where the lengths agree. -/
theorem readAhead_transparent (lossless : env.Lossless) (runs : List (ObjectRef × Bytes)) (expectedKeys : UInt64) :
    (∃ result : Option BuiltRun,
      (mergeRuns env.toPrimitives runs expectedKeys).Follows ((calm env.toPrimitives backend).step owner)
        (fun outcome _ => outcome.toOption = result) base ∧
      ∃ enough, ∀ fuel, enough ≤ fuel → (mergeDirect env.toPrimitives fuel runs expectedKeys).Follows
        ((calm env.toPrimitives backend).step owner) (fun outcome _ => outcome.toOption = result) base) ∧
    ∀ lists before reference, (getAfter env.toPrimitives lists before reference).Follows
      ((calm env.toPrimitives backend).step owner)
      (fun outcome after => ∀ bytes, outcome = .ok (.ok bytes) →
        (∃ stored : ObjectRef, stored.digest = reference.digest ∧
          after.view env.toPrimitives backend owner stored = .ok bytes) ∧
        (after.view env.toPrimitives backend owner reference = .ok bytes ↔
          bytes.length = reference.length.toNat)) base := by
  constructor
  · cases opened : decodeRuns env.toPrimitives runs with
    | error error =>
        refine ⟨none, ?_, 0, fun fuel _ => ?_⟩
        · rw [mergeRuns_through, opened]
          rfl
        · rw [mergeDirect, opened]
          rfl
    | ok readers =>
        by_cases possible : ∃ built, Mergeable env backend owner base readers expectedKeys built
        · obtain ⟨built, mergeable⟩ := possible
          obtain ⟨enough, direct⟩ := mergeDirect_merges opened mergeable
          refine ⟨some built, ?_, enough, fun fuel more => ?_⟩
          · exact (mergeRuns_merges opened mergeable).weaken (fun _ _ done => congrArg _ done)
          · exact (direct fuel more).weaken (fun _ _ done => congrArg _ done)
        · have fails : ∀ outcome : Except Error BuiltRun, (∀ built, outcome = .ok built →
              Mergeable env backend owner base readers expectedKeys built) → outcome.toOption = none := by
            rintro (error | built) merges
            · rfl
            · exact absurd ⟨built, merges built rfl⟩ possible
          refine ⟨none, ?_, 0, fun fuel _ => ?_⟩
          · exact (mergeRuns_sound lossless opened).weaken (fun outcome _ => fails outcome)
          · rw [mergeDirect, opened, Prog.bind_eq, Prog.liftM_eq, Prog.ofExcept_ok, Prog.ret_bind]
            exact (fetches_direct.sound lossless).weaken (fun outcome _ => fails outcome)
  · intro lists before reference
    apply (getAfter_shelved lists before reference).weaken
    intro outcome after shelved bytes done
    have here := shelved bytes done
    refine ⟨?_, here.view_iff⟩
    obtain ⟨held, stored, same, accepts⟩ := here
    exact ⟨stored, same, view_eq_ok.mpr ⟨accepts, same ▸ held⟩⟩

end

/-- Programs with one result in every execution agree when they are run. -/
theorem executes_alike {env : Primitives} {backend : Backend} {owner : Call} {base : ArchiveSystem} {others : Prop}
    {merge : UInt64 → StoreProg BuiltRun} {direct : UInt64 → Nat → StoreProg BuiltRun}
    (alike : ∀ expectedKeys, (∃ result : Option BuiltRun,
      (merge expectedKeys).Follows ((calm env backend).step owner) (fun outcome _ => outcome.toOption = result) base ∧
      ∃ enough, ∀ fuel, enough ≤ fuel → (direct expectedKeys fuel).Follows ((calm env backend).step owner)
        (fun outcome _ => outcome.toOption = result) base) ∧ others) (expectedKeys : UInt64) :
    ∃ enough, ∀ fuel, enough ≤ fuel →
      ((direct expectedKeys fuel).execute (System.perform env backend owner) base).1.toOption =
        ((merge expectedKeys).execute (System.perform env backend owner) base).1.toOption := by
  obtain ⟨⟨result, merged, enough, same⟩, _⟩ := alike expectedKeys
  refine ⟨enough, fun fuel more => ?_⟩
  have one := merged.execute (fun op state => System.perform_step owner state op)
  have two := (same fuel more).execute (fun op state => System.perform_step owner state op)
  exact two.trans one.symm

/-- A run of one record is merged into the same run either way. -/
theorem readAhead_transparent_twin :
    twinEnv.Lossless ∧
    ((mergeRuns twinEnv.toPrimitives [firstTwin.run] 1).execute twinPerform twinStore).1.toOption.map BuiltRun.root =
      some firstTwin.run.1 ∧
    ∃ enough, ∀ fuel, enough ≤ fuel →
      ((mergeDirect twinEnv.toPrimitives fuel [firstTwin.run] 1).execute twinPerform twinStore).1.toOption =
        ((mergeRuns twinEnv.toPrimitives [firstTwin.run] 1).execute twinPerform twinStore).1.toOption :=
  ⟨storedPrimitives_lossless _, by decide +kernel,
    executes_alike (@readAhead_transparent twinEnv .memory (chainCall 0) twinStore
      (storedPrimitives_lossless _) [firstTwin.run]) 1⟩

/-! One page under two lengths. -/

def twinPage (length : UInt32) : ObjectRef := ⟨.ofNat firstTwin.page, length⟩

/-- Pages are kept by digest, so a listed page also answers for a reference that gives it
another length. A fetch of that reference fails. -/
theorem getAfter_other_length :
    ((getAfter twinEnv.toPrimitives [[twinPage 50], [twinPage 49]] [] (twinPage 49)).execute
      twinPerform twinStore).1 = .ok (.ok ((firstTwin.objects.map EncodedObject.bytes).headD [])) ∧
    ((fetch twinEnv.toPrimitives (twinPage 49)).execute twinPerform twinStore).1.toOption = none := by
  decide +kernel

end Fossil

import Fossil.Tasks
import Fossil.Admission

/-! What a merge leaves behind when its producer fails.

A producer that stops drops its end of the record channel. To the builder that is the
end of the stream, so it finishes over whatever it was handed, and its root is uploaded
like everything else. -/

namespace Fossil

/-- How the tasks of a merge ended, with the records handed to the builder. -/
structure MergeTasks where
  sent : List Record
  produced : Result SummaryBuilder
  built : Result ObjectRef
  uploaded : Pipeline

def MergeOp.records : MergeOp → List Record
  | .fetch _ => []
  | .send record => [record]

section

variable (env : Primitives)

/-- A step of the pipeline, with the records handed over so far. -/
def notedStep (lists : List (List ObjectRef)) (noted : Pipeline × List Record) (op : MergeOp) :
    StoreProg (op.Resp × (Pipeline × List Record)) :=
  (noted.1.step env lists op).bind (fun reply => .ret (reply.1, reply.2, noted.2 ++ op.records))

/-- The merge up to the point where its three tasks have been joined. -/
def mergeTasks (runs : List (ObjectRef × Bytes)) (expectedKeys : UInt64) : StoreProg MergeTasks := do
  let readers ← decodeRuns env runs
  let lists ← pageLists env readers
  let (produced, fed, sent) ← Prog.handle (notedStep env lists) (Pipeline.start, [])
    (produce env readers (mergeFuel lists) expectedKeys)
  let (built, finished) := fed.finish env
  let uploaded ← finished.uploadRest
  .ret ⟨sent, produced, built, uploaded⟩

/-- What the merge makes of the outcomes of its tasks. -/
def conclude (produced : Result SummaryBuilder) (built : Result ObjectRef) (uploaded : Pipeline) :
    StoreProg BuiltRun := do
  let summary ← produced
  let root ← built
  match uploaded.stopped with
  | some error => .fail error
  | none => do
      putAll (summary.finish env root.digest).length (summary.finish env root.digest)
      .ret ⟨root, uploaded.rootBytes, summary.keys, summary.shards⟩

/-- The whole merge, observed: its result next to how its tasks ended. -/
def mergeWatched (runs : List (ObjectRef × Bytes)) (expectedKeys : UInt64) :
    StoreProg (MergeTasks × Result BuiltRun) := do
  let tasks ← mergeTasks env runs expectedKeys
  let result ← Prog.attempt (conclude env tasks.produced tasks.built tasks.uploaded)
  .ret (tasks, result)

/-- Watching a merge does not change it. -/
theorem mergeRuns_watched (runs : List (ObjectRef × Bytes)) (expectedKeys : UInt64) :
    mergeRuns env runs expectedKeys =
      (mergeWatched env runs expectedKeys).bind (fun watched => Prog.ofExcept watched.2) := by
  have observed : ∀ {α : Type} (prog : StoreProg α), prog.attempt.bind Prog.ofExcept = prog := by
    intro α prog
    induction prog with
    | ret value => rfl
    | fail error => rfl
    | call op next ih =>
        simp only [Prog.attempt, Prog.bind]
        congr 1
        funext reply
        exact ih reply
  have joined : mergeRuns env runs expectedKeys =
      (mergeTasks env runs expectedKeys).bind (fun tasks =>
        conclude env tasks.produced tasks.built tasks.uploaded) := by
    unfold mergeRuns mergeTasks
    simp only [Prog.bind_eq, Prog.bind_assoc]
    congr 1
    funext readers
    congr 1
    funext lists
    exact (Prog.handle_noted (Pipeline.step env lists) (fun (sent : List Record) op => sent ++ op.records)
      (fun produced fed => (fed.finish env).2.uploadRest.bind (fun uploaded =>
        conclude env produced (fed.finish env).1 uploaded)) _ _ _).symm
  rw [joined, mergeWatched]
  simp only [Prog.bind_eq, Prog.bind_assoc, Prog.ret_bind, observed]

end

/-! Only the last object of a finished build is a root. -/

theorem emitting_below_root (env : Primitives) : EmittingBelow env (fun object => ¬ rootMagic <+: object.bytes) where
  page := by
    intro page object encoded
    obtain ⟨compressed, _, _, _, made⟩ := encodePage_eq_ok encoded
    rw [(verifyObject_makeObject made).1]
    simp [rootMagic, compressedMagic]
  index := by
    intro magic member entries bytes object encoded made
    rw [(verifyObject_makeObject made).1, (encodeIndex_eq_ok encoded).2]
    simp only [List.mem_cons, List.not_mem_nil, or_false] at member
    rcases member with rfl | rfl
    · simp [rootMagic, indexMagic]
    · simp [rootMagic, internalMagic]

theorem build_of_root {env : Primitives} {sent : List Record} {object : EncodedObject}
    (member : object ∈ (RunBuilder.build env sent).collect.1) (marked : rootMagic <+: object.bytes) :
    (RunBuilder.build env sent).collect.2 = .ok object.reference := by
  have below := emitting_below_root env
  have bad : ¬ ¬ rootMagic <+: object.bytes := not_not.mpr marked
  obtain ⟨building, late, same⟩ := (pushAll_asks below .start sent).collect_bind_rest member bad
  obtain ⟨closed, late, same'⟩ := (closePartitions_asks below _ _).collect_bind_rest late bad
  obtain ⟨references, late, same''⟩ := (partitionRefs_asks below closed).collect_bind_rest late bad
  refine same.trans (same'.trans (same''.trans ?_))
  cases made : makeObject env (encodeRoot references) with
  | error error =>
      rw [made] at late
      cases late
  | ok root =>
      rw [made] at late
      cases List.mem_singleton.mp late
      rfl

theorem root_of_build {env : Primitives} {sent : List Record} {root : ObjectRef}
    (built : (RunBuilder.build env sent).collect.2 = .ok root) :
    ∃ object ∈ (RunBuilder.build env sent).collect.1, object.reference = root ∧ rootMagic <+: object.bytes := by
  obtain ⟨tree, stores, same⟩ := build_granted (Prod.ext rfl built)
  refine ⟨tree.object, List.mem_of_getLast? stores.root, same.symm, ?_⟩
  rw [(verifyObject_makeObject tree.made).1, encodeRoot, List.append_assoc]
  exact List.prefix_append _ _

/-! The store afterwards. -/

/-- Nothing was added to the store but data pages and indexes. -/
structure NoRootLeft (base after : ArchiveSystem) : Prop where
  roots : ∀ digest bytes, after.content (.object digest) = some bytes → rootMagic <+: bytes →
    base.content (.object digest) = some bytes
  others : ∀ key, (∀ digest, key ≠ .object digest) → after.content key = base.content key

/-- What holds once a merge whose producer failed has ended. A conflict aside, a root is
left exactly when a run can be built from the records handed over and its root is new. -/
structure Abandons (env : Primitives) (base : ArchiveSystem)
    (outcome : Except Error (MergeTasks × Result BuiltRun)) (after : ArchiveSystem) : Prop where
  unopened : ∀ error, outcome = .error error → NoRootLeft base after
  fails : ∀ tasks result error, outcome = .ok (tasks, result) → tasks.produced = .error error →
    result = .error error
  others : ∀ tasks result error, outcome = .ok (tasks, result) → tasks.produced = .error error →
    ∀ key, (∀ digest, key ≠ .object digest) → after.content key = base.content key
  clean_iff : ∀ tasks result error, outcome = .ok (tasks, result) → tasks.produced = .error error →
    ¬ Conflict (objectPuts (RunBuilder.build env tasks.sent).collect.1) base →
    (NoRootLeft base after ↔ ∀ root, (RunBuilder.build env tasks.sent).collect.2 = .ok root →
      base.content (.object root.digest) ≠ none)

section

variable {env : Externals} {backend : Backend} {owner : Call} {base state : ArchiveSystem}

/-- A merge that ends before its tasks start. -/
theorem Abandons.early {error : Error} (clean : NoRootLeft base state) :
    Abandons env.toPrimitives base (.error error) state := by
  refine ⟨fun _ _ => clean, ?_, ?_, ?_⟩ <;> rintro _ _ _ ⟨⟩

theorem Grown.others {objects : List EncodedObject} (grown : Grown (objectPuts objects) base state) {key : Key}
    (other : ∀ digest, key ≠ .object digest) : state.content key = base.content key := by
  cases before : base.content key with
  | some bytes => exact grown.kept key bytes before
  | none =>
      cases now : state.content key with
      | none => rfl
      | some bytes =>
          rcases grown.fresh key bytes now with held | new
          · cases before.symm.trans held
          · obtain ⟨object, _, same⟩ := List.mem_map.mp new
            exact absurd (congrArg Prod.fst same).symm (other _)

/-- A root is left exactly when the builder finished over what it was handed. -/
theorem Pipeline.Ended.noRootLeft_iff {pipeline : Pipeline} {sent : List Record} {built : Result ObjectRef}
    (ended : pipeline.Ended env.toPrimitives base sent built state) (empty : pipeline.pending = [])
    (free : ¬ Conflict (objectPuts (RunBuilder.build env.toPrimitives sent).collect.1) base) :
    NoRootLeft base state ↔ ∀ root, (RunBuilder.build env.toPrimitives sent).collect.2 = .ok root →
      base.content (.object root.digest) ≠ none := by
  constructor
  · intro clean root granted
    have running : pipeline.stopped = none := by
      by_contra stopped
      exact free (ended.halted stopped)
    obtain ⟨object, member, rfl, marked⟩ := root_of_build granted
    have held : Held state object := by
      rcases (ended.building running).2.2 object member with queued | held
      · rw [empty] at queued
        cases queued
      · exact held
    rw [clean.roots _ _ held marked]
    exact Option.some_ne_none _
  · intro stored
    refine ⟨?_, fun key other => ended.grown.others other⟩
    intro digest bytes held marked
    rcases ended.grown.fresh _ _ held with old | new
    · exact old
    · obtain ⟨object, member, same⟩ := List.mem_map.mp new
      obtain ⟨key, rfl⟩ := Prod.mk.inj same
      cases key
      have known := stored _ (build_of_root member marked)
      obtain ⟨before, found⟩ := Option.ne_none_iff_exists'.mp known
      by_cases different : before = object.bytes
      · rw [found, different]
      · exact absurd ⟨_, new, before, different, .inl found⟩ free

theorem working_notedStep {lists : List (List ObjectRef)} (noted : Pipeline × List Record) (op : MergeOp)
    (works : noted.1.Works env.toPrimitives base noted.2 state) :
    Working env backend owner (fun result after => result.2.1.Works env.toPrimitives base result.2.2 after)
      (notedStep env.toPrimitives lists noted op) state := by
  cases op with
  | fetch reference =>
      apply (working_get works).bind
      rintro ⟨reply, pipeline⟩ after ⟨_, _, works', _⟩
      refine ⟨_, rfl, ?_⟩
      simpa [MergeOp.records] using works'
  | send record =>
      apply (working_send works).bind
      exact fun result after works' => ⟨_, rfl, works'.1⟩

theorem working_handle {lists : List (List ObjectRef)} {producer : MergeProg SummaryBuilder}
    {pipeline : Pipeline} {sent : List Record} (works : pipeline.Works env.toPrimitives base sent state) :
    Working env backend owner (fun result after => result.2.1.Works env.toPrimitives base result.2.2 after)
      (Prog.handle (notedStep env.toPrimitives lists) (pipeline, sent) producer) state :=
  Prog.handle_keeps (fun (noted : Pipeline × List Record) now => noted.1.Works env.toPrimitives base noted.2 now)
    (fun noted op _ works => working_notedStep noted op works) works

/-- The tasks of a merge start after reads only, and end with the builder's objects stored
or in conflict. -/
theorem mergeTasks_ends (runs : List (ObjectRef × Bytes)) (expectedKeys : UInt64) :
    (mergeTasks env.toPrimitives runs expectedKeys).Follows ((calm env.toPrimitives backend).step owner)
      (fun outcome after => (∃ error clock, outcome = .error error ∧ after = base.tick clock) ∨
        ∃ tasks, outcome = .ok tasks ∧ tasks.uploaded.pending = [] ∧
          tasks.uploaded.Ended env.toPrimitives base tasks.sent tasks.built after) base := by
  apply Prog.follows_ofExcept_bind
  · exact fun error _ => .inl ⟨error, base.clock, rfl, rfl⟩
  intro readers _
  apply Prog.Follows.bind
  apply follows_reads base (pageLists_reads readers)
  intro clock _
  cases ((pageLists env.toPrimitives readers).run (base.replies env.toPrimitives backend owner)).2 with
  | error error => exact .inl ⟨error, clock, rfl, rfl⟩
  | ok lists =>
      rw [Prog.resume]
      apply Prog.Follows.bind
      apply (working_handle (Pipeline.works_start ((Grown.refl base).tick clock))).weaken
      rintro outcome fedState ⟨⟨produced, fed, sent⟩, rfl, works⟩
      have closes := works.finish
      rcases finish : fed.finish env.toPrimitives with ⟨built, finished⟩
      simp only [finish] at closes
      simp only [Prog.resume, finish]
      apply Prog.Follows.bind
      apply (working_uploadRest closes).weaken
      rintro outcome after ⟨uploaded, rfl, empty, ended⟩
      exact .inr ⟨⟨sent, produced, _, uploaded⟩, rfl, empty, ended⟩

theorem mergeWatched_abandons (runs : List (ObjectRef × Bytes)) (expectedKeys : UInt64) :
    (mergeWatched env.toPrimitives runs expectedKeys).Follows ((calm env.toPrimitives backend).step owner)
      (Abandons env.toPrimitives base) base := by
  apply Prog.Follows.bind
  apply (mergeTasks_ends runs expectedKeys).weaken
  rintro outcome after (⟨error, clock, rfl, rfl⟩ | ⟨⟨sent, produced, built, uploaded⟩, rfl, empty, ended⟩)
  · exact .early ⟨fun _ _ held _ => held, fun _ _ => rfl⟩
  · cases produced with
    | error error =>
        refine ⟨nofun, ?_, ?_, ?_⟩
        · rintro _ _ _ ⟨⟩ ⟨⟩
          rfl
        · rintro _ _ _ ⟨⟩ ⟨⟩ key other
          exact ended.grown.others other
        · rintro _ _ _ ⟨⟩ ⟨⟩
          exact ended.noRootLeft_iff empty
    | ok summary =>
        apply Prog.Follows.bind
        apply Prog.Follows.attempt
        apply Prog.follows_of_forall
        intro outcome after
        refine ⟨nofun, ?_, ?_, ?_⟩ <;> rintro _ _ _ ⟨⟩ ⟨⟩

/-- A merge whose producer fails returns that error and writes no summary; it leaves a run
root exactly when a run can be built from the records handed over before, unless that
root was stored already. -/
theorem mergeRuns_abandons (runs : List (ObjectRef × Bytes)) (expectedKeys : UInt64) :
    mergeRuns env.toPrimitives runs expectedKeys =
      (mergeWatched env.toPrimitives runs expectedKeys).bind (fun watched => Prog.ofExcept watched.2) ∧
    (mergeWatched env.toPrimitives runs expectedKeys).Follows ((calm env.toPrimitives backend).step owner)
      (Abandons env.toPrimitives base) base :=
  ⟨mergeRuns_watched env.toPrimitives runs expectedKeys, mergeWatched_abandons runs expectedKeys⟩

end

theorem Abandons.of_follows {env : Primitives} {backend : Backend} {owner : Call} {base : ArchiveSystem}
    {prog : UInt64 → StoreProg (MergeTasks × Result BuiltRun)} {watches : UInt64 → Prop}
    (follows : ∀ expectedKeys, watches expectedKeys ∧
      (prog expectedKeys).Follows ((calm env backend).step owner) (Abandons env base) base)
    (expectedKeys : UInt64) :
    Abandons env base ((prog expectedKeys).execute (System.perform env backend owner) base).1
      ((prog expectedKeys).execute (System.perform env backend owner) base).2 :=
  (follows expectedKeys).2.execute (fun op state => System.perform_step owner state op)

theorem Abandons.noRootLeft {env : Primitives} {base after : ArchiveSystem} {sent : List Record}
    {outcome : Except Error (MergeTasks × Result BuiltRun)} (abandons : Abandons env base outcome after)
    (ran : outcome.toOption.map (fun watched => (watched.1.sent, watched.1.produced.toOption.isSome)) =
      some (sent, false))
    (free : ¬ Conflict (objectPuts (RunBuilder.build env sent).collect.1) base)
    (stored : ∀ root, (RunBuilder.build env sent).collect.2 = .ok root → base.content (.object root.digest) ≠ none) :
    NoRootLeft base after := by
  cases outcome with
  | error error => cases ran
  | ok watched =>
      obtain ⟨⟨handed, produced, built, uploaded⟩, result⟩ := watched
      obtain ⟨rfl, failed⟩ := Prod.mk.inj (Option.some.inj ran)
      cases produced with
      | ok summary => cases failed
      | error error => exact (abandons.clean_iff _ _ _ rfl rfl free).mpr stored

/-! Two runs that share a version. -/

def twinRecord (value : Bytes) : Record := ⟨[1], 0x0123456789abcdef, value⟩

/-- A run of one such record, by the digests of its page, its index and its root. -/
structure Twin where
  value : Bytes
  page : Nat
  index : Nat
  root : Nat

def Twin.objects (twin : Twin) : List EncodedObject :=
  [⟨⟨.ofNat twin.page, 50⟩, compressedMagic ++ [formatVersion] ++ be32 28 ++ be32 37 ++
      storedFrame (pageBytes [twinRecord twin.value])⟩,
    ⟨⟨.ofNat twin.index, 58⟩, indexMagic ++ [formatVersion] ++ be32 1 ++
      fenceBytes ⟨[1], 0x0123456789abcdef, ⟨.ofNat twin.page, 50⟩⟩⟩,
    ⟨⟨.ofNat twin.root, 581⟩, encodeRoot ((List.range 16).map (fun shard =>
      if shard = 4 then ⟨.ofNat twin.index, 58⟩ else .default))⟩]

def Twin.digests (twin : Twin) : List (Bytes × Nat) :=
  (twin.objects.map EncodedObject.bytes).zip [twin.page, twin.index, twin.root]

def firstTwin : Twin where
  value := [2, 3]
  page := 0x1e6ea9c8f586e8464980dc477d4617beda00e34b31883deef744647c6ebc6e7a
  index := 0xb272bff83938e8063259a7c40eff092eff40eb47c5643c0d9c0d12d9c926f5ae
  root := 0x2a9ca8a9d85a23290b63adad1ac62ef51fd0472960baab23dbe935ac7d54d00a

def secondTwin : Twin where
  value := [4, 5]
  page := 0x8dce6e90f2093149d00ff56db1d78be6655feffdd1a805fd73207aca75150cb7
  index := 0x71ef2b62d7479c926561b4181c2d2bbfd2871db40cdce122438cff035e8655e5
  root := 0x1676ea32ac9db70a2cab599ca3370a00e1fa0506cc604511f6d2926a934d1d27

def twinEnv : Externals :=
  .ofTables (storedPrimitives (keyDigest ++ firstTwin.digests ++ secondTwin.digests ++
    [(emptyRoot, 0x02aa3a5ef70be6c080df29856d9a5d428c571527610fe61dc5f11f35173ec53c)])) [] [] []

def shelve (objects : List EncodedObject) : ArchiveSystem :=
  objects.foldl (fun state object => state.insert .memory object.objectKey object.bytes) System.empty

def twinStore : ArchiveSystem := shelve (firstTwin.objects ++ secondTwin.objects)

def Twin.run (twin : Twin) : ObjectRef × Bytes :=
  (twin.objects.getLast?.map (fun object => (object.reference, object.bytes))).getD (.default, [])

def twinRuns : List (ObjectRef × Bytes) := [firstTwin.run, secondTwin.run]

def twinPerform : ArchiveSystem → (op : StoreOp) → op.Resp × ArchiveSystem :=
  System.perform twinEnv.toPrimitives .memory (chainCall 0)

theorem twins_stored :
    List.Forall₂ (BuiltAndStored twinEnv.toPrimitives twinStore) twinRuns
      [[twinRecord [2, 3]], [twinRecord [4, 5]]] := by
  have stored : AllStored (objectPuts (firstTwin.objects ++ secondTwin.objects)) twinStore := by
    unfold AllStored
    decide +kernel
  refine .cons ⟨firstTwin.objects, by decide +kernel, rfl, ?_⟩
    (.cons ⟨secondTwin.objects, by decide +kernel, rfl, ?_⟩ .nil)
  · exact fun object member => stored object (by rw [objectPuts, List.map_append]; exact List.mem_append_left _ member)
  · exact fun object member => stored object (by rw [objectPuts, List.map_append]; exact List.mem_append_right _ member)

/-- The merge of two runs that share a version fails before any record is handed over,
and leaves the root of a run without records. -/
theorem mergeRuns_twins :
    List.Forall₂ (BuiltAndStored twinEnv.toPrimitives twinStore) twinRuns
      [[twinRecord [2, 3]], [twinRecord [4, 5]]] ∧
    ((mergeRuns twinEnv.toPrimitives twinRuns 2).execute twinPerform twinStore).1 =
      bail "duplicate (key, block) across merged runs" ∧
    ¬ NoRootLeft twinStore ((mergeRuns twinEnv.toPrimitives twinRuns 2).execute twinPerform twinStore).2 := by
  have absent : twinStore.content (.object (emptyRun 0 1).root.digest) = none := by decide +kernel
  have ran : (((mergeRuns twinEnv.toPrimitives twinRuns 2).execute twinPerform twinStore).1,
      ((mergeRuns twinEnv.toPrimitives twinRuns 2).execute twinPerform twinStore).2.content
        (.object (emptyRun 0 1).root.digest)) =
      (bail "duplicate (key, block) across merged runs", some emptyRoot) := by
    decide +kernel
  obtain ⟨fails, left⟩ := Prod.mk.inj ran
  refine ⟨twins_stored, fails, ?_⟩
  intro clean
  cases absent.symm.trans (clean.roots _ _ left (by decide))

/-- The same store, with the root of a run without records in it. -/
def settledStore : ArchiveSystem :=
  shelve (firstTwin.objects ++ secondTwin.objects ++ [⟨(emptyRun 0 1).root, emptyRoot⟩])

theorem build_nothing :
    (RunBuilder.build twinEnv.toPrimitives []).collect =
      ([⟨(emptyRun 0 1).root, emptyRoot⟩], .ok (emptyRun 0 1).root) := by
  decide +kernel

theorem mergeRuns_twins_settled :
    ((mergeWatched twinEnv.toPrimitives twinRuns 2).execute twinPerform settledStore).1.toOption.map
      (fun watched => (watched.1.sent, watched.1.produced.toOption.isSome)) = some ([], false) ∧
    ¬ Conflict (objectPuts (RunBuilder.build twinEnv.toPrimitives []).collect.1) settledStore ∧
    NoRootLeft settledStore ((mergeWatched twinEnv.toPrimitives twinRuns 2).execute twinPerform settledStore).2 := by
  have held : settledStore.content (.object (emptyRun 0 1).root.digest) = some emptyRoot := by decide +kernel
  have free : ¬ Conflict (objectPuts (RunBuilder.build twinEnv.toPrimitives []).collect.1) settledStore := by
    rw [build_nothing]
    rintro ⟨put, member, bytes, different, taken⟩
    cases List.mem_singleton.mp member
    rcases taken with found | listed
    · exact different (Option.some.inj (found.symm.trans held))
    · exact different (congrArg Prod.snd (List.mem_singleton.mp listed))
  have ran : ((mergeWatched twinEnv.toPrimitives twinRuns 2).execute twinPerform settledStore).1.toOption.map
      (fun watched => (watched.1.sent, watched.1.produced.toOption.isSome)) = some ([], false) := by
    decide +kernel
  have stored : ∀ root, (RunBuilder.build twinEnv.toPrimitives []).collect.2 = .ok root →
      settledStore.content (.object root.digest) ≠ none := by
    intro root built
    rw [build_nothing] at built
    rw [← Except.ok.inj built, held]
    exact Option.some_ne_none _
  have abandons := Abandons.of_follows (@mergeRuns_abandons twinEnv .memory (chainCall 0) settledStore twinRuns) 2
  exact ⟨ran, free, abandons.noRootLeft ran free stored⟩

end Fossil

import Fossil.MergeProducer

/-! The merge of adjacent runs.

The builder and the uploader follow what the producer sends, so a finished merge
is the build of the merged records, with everything stored. -/

namespace Fossil

section Pipeline

variable {env : Primitives} {pipeline : Pipeline}

/-! The builder and the uploader. -/

/-- The bytes of the last object small enough to be a root. -/
def smallBytes (start : Bytes) (objects : List EncodedObject) : Bytes :=
  objects.foldl (fun kept object => if object.bytes.length < 4096 then object.bytes else kept) start

theorem smallBytes_append (start : Bytes) (first second : List EncodedObject) :
    smallBytes start (first ++ second) = smallBytes (smallBytes start first) second :=
  List.foldl_append

/-- While the uploader runs, everything a builder step emits is queued. -/
theorem deliver_running {α : Type} (prog : Emit α) (running : pipeline.stopped = none) :
    pipeline.deliver prog = (prog.collect.2, { pipeline with
      pending := pipeline.pending ++ prog.collect.1
      rootBytes := smallBytes pipeline.rootBytes prog.collect.1 }) := by
  induction prog generalizing pipeline with
  | ret value => simp [Pipeline.deliver, Prog.collect, smallBytes]
  | fail error => simp [Pipeline.deliver, Prog.collect, smallBytes]
  | call object next ih =>
      have accepted : pipeline.accept object = (.ok (), { pipeline with
          rootBytes := if object.bytes.length < 4096 then object.bytes else pipeline.rootBytes
          pending := pipeline.pending ++ [object] }) := by
        simp [Pipeline.accept, running]
      rw [Pipeline.deliver, accepted, ih _ (by simpa using running)]
      simp [Prog.collect, smallBytes]

/-- A stopped uploader takes nothing more. -/
theorem deliver_stopped {α : Type} (prog : Emit α) {error : Error}
    (stopped : pipeline.stopped = some error) :
    ∃ result bytes, pipeline.deliver prog = (result, { pipeline with rootBytes := bytes }) := by
  induction prog generalizing pipeline with
  | ret value => exact ⟨_, pipeline.rootBytes, rfl⟩
  | fail error => exact ⟨_, pipeline.rootBytes, rfl⟩
  | call object next ih =>
      have refused : pipeline.accept object = (bail "compaction object uploader stopped", { pipeline with
          rootBytes := if object.bytes.length < 4096 then object.bytes else pipeline.rootBytes }) := by
        simp [Pipeline.accept, stopped]
      rw [Pipeline.deliver, refused]
      rcases @ih _ { pipeline with rootBytes := if object.bytes.length < 4096 then object.bytes
        else pipeline.rootBytes } stopped with ⟨result, bytes, same⟩
      exact ⟨result, bytes, same⟩

theorem pushAll_append (state : BuilderState) (first second : List Record) :
    state.pushAll env (first ++ second) =
      (state.pushAll env first).bind (fun next => next.pushAll env second) := by
  induction first generalizing state with
  | nil => rfl
  | cons record first ih =>
      simp only [List.cons_append, BuilderState.pushAll, Prog.bind_eq, ih, Prog.bind_assoc]

theorem pushAll_snoc_collect (state : BuilderState) (records : List Record) (record : Record) :
    (state.pushAll env (records ++ [record])).collect =
      ((state.pushAll env records).collect.1 ++
        (Prog.resume (fun next => BuilderState.push env next record)
          (state.pushAll env records).collect.2).collect.1,
        (Prog.resume (fun next => BuilderState.push env next record)
          (state.pushAll env records).collect.2).collect.2) := by
  have single : (fun next : BuilderState => next.pushAll env [record]) =
      (fun next => BuilderState.push env next record) :=
    funext (fun next => Prog.bind_ret (next.push env record))
  rw [pushAll_append, single, Prog.collect_bind]

variable {Owner : Type}

/-- The pipeline after these records: what is read ahead is stored, and unless the
uploader has failed, so is all the builder has emitted, or it is still queued. -/
structure Pipeline.Holds (env : Primitives) (sent : List Record) (pipeline : Pipeline)
    (state : System Owner) : Prop where
  ready : ∀ digest bytes, pipeline.ready.lookup digest = some bytes →
    state.content (.object digest) = some bytes
  addressed : ∀ object ∈ pipeline.pending, object.Addressed env
  building : pipeline.stopped = none → ∃ objects,
    (BuilderState.start.pushAll env sent).collect = (objects, pipeline.builder) ∧
    pipeline.rootBytes = smallBytes [] objects ∧
    ∀ object ∈ objects, object ∈ pipeline.pending ∨
      state.content object.objectKey = some object.bytes

variable {world : World StoreOp StoreOp.Resp Owner (System Owner)} {protocol : Protocol (System Owner)}
  {owner : Owner} {mayPut : System Owner → Key → Bytes → Prop} {sent : List Record}

theorem Pipeline.Holds.stays (host : Hosting env world protocol owner mayPut)
    {state later : System Owner} (moves : protocol.le state later)
    (holds : pipeline.Holds env sent state) : pipeline.Holds env sent later := by
  refine ⟨?_, holds.addressed, ?_⟩
  · intro digest bytes found
    exact host.stays moves rfl (holds.ready digest bytes found)
  · intro running
    rcases holds.building running with ⟨objects, built, root, kept⟩
    refine ⟨objects, built, root, ?_⟩
    intro object member
    rcases kept object member with queued | stored
    · exact .inl queued
    · exact .inr (host.stays moves rfl stored)

theorem Pipeline.holds_start (state : System Owner) : Pipeline.start.Holds env [] state := by
  refine ⟨?_, nofun, ?_⟩
  · intro digest bytes found
    cases found
  · intro _
    exact ⟨[], rfl, rfl, nofun⟩

/-- An object that has been uploaded leaves the queue. -/
theorem Pipeline.Holds.uploaded {state : System Owner} {index : Nat} {object : EncodedObject}
    (holds : pipeline.Holds env sent state) (found : pipeline.pending[index]? = some object)
    (stored : state.content object.objectKey = some object.bytes) :
    ({ pipeline with pending := pipeline.pending.eraseIdx index } : Pipeline).Holds env sent state := by
  refine ⟨holds.ready, ?_, ?_⟩
  · intro other member
    exact holds.addressed other (List.mem_of_mem_eraseIdx member)
  · intro running
    rcases holds.building running with ⟨objects, built, root, kept⟩
    refine ⟨objects, built, root, ?_⟩
    intro other member
    rcases kept other member with queued | known
    · rcases List.getElem?_eq_some_iff.mp found with ⟨bound, same⟩
      rcases List.getElem_of_mem queued with ⟨place, inside, here⟩
      by_cases this : place = index
      · subst this
        rw [← here, same]
        exact .inr stored
      · exact .inl (List.mem_eraseIdx_iff_getElem.mpr ⟨place, inside, this, here⟩)
    · exact .inr known

/-- A failed upload ends the uploader. -/
theorem Pipeline.Holds.stop {state : System Owner} {error : Error}
    (holds : pipeline.Holds env sent state) :
    ({ pipeline with pending := [], stopped := some error } : Pipeline).Holds env sent state :=
  ⟨holds.ready, nofun, nofun⟩

theorem Hosting.upload_safe (host : Hosting env world protocol owner mayPut) {fuel : Nat}
    {state : System Owner} (holds : pipeline.Holds env sent state) :
    (Pipeline.upload fuel pipeline).Safe world protocol owner
      (Prog.Delivers (fun uploaded later => uploaded.Holds env sent later)) state := by
  induction fuel generalizing pipeline state with
  | zero => exact Prog.safe_ret_delivers (fun later moves _ => holds.stays host moves)
  | succ fuel ih =>
      apply host.choose_safe
      intro n middle moves
      have holds' := holds.stays host moves
      cases found : pipeline.pending[n]? with
      | none => exact Prog.safe_ret_delivers (fun later moved _ => holds'.stays host moved)
      | some object =>
          have addressed := holds'.addressed object (List.mem_of_getElem? found)
          have put := host.putImmutable_safe rfl (host.object middle object addressed)
          apply Prog.Safe.delivers_bind put.attempt_delivers
          intro outcome later moved _ stored
          have holds'' := holds'.stays host moved
          cases outcome with
          | ok value => exact ih (holds''.uploaded found (stored value rfl))
          | error error =>
              exact Prog.safe_ret_delivers (fun last further _ => holds''.stop.stays host further)

/-! Fetches of the producer. -/

theorem Hosting.getBounded_safe (host : Hosting env world protocol owner mayPut) {key : Key}
    {maximum : Nat} {state : System Owner} (immutable : key.immutable) :
    (getBounded key maximum).Safe world protocol owner
      (Prog.Returns (fun bytes later => later.content key = some bytes)) state := by
  intro later moves inv reply after stepped
  rcases host.read inv stepped with ⟨kept, grown, found⟩
  refine ⟨kept, grown, Prog.safe_ofExcept ?_⟩
  intro final moved _ bytes done
  exact host.stays moved immutable (found bytes done)

theorem Hosting.fetch_safe (host : Hosting env world protocol owner mayPut) {reference : ObjectRef}
    {state : System Owner} :
    (fetch env reference).Safe world protocol owner (Prog.Returns (fun bytes later =>
      later.content (.object reference.digest) = some bytes)) state := by
  unfold fetch
  apply Prog.safe_guard
  intro _
  apply Prog.Safe.returns_bind (host.getBounded_safe rfl)
  intro bytes later _ _ found
  apply Prog.safe_guard
  intro _
  exact Prog.safe_ret_returns (fun last moved _ => host.stays moved rfl found)

/-- A fetched reply is what the store holds. -/
def Fetched (reference : ObjectRef) (reply : Result Bytes) (state : System Owner) : Prop :=
  ∀ bytes, reply = .ok bytes → state.content (.object reference.digest) = some bytes

theorem Hosting.pipelineFetch_safe (host : Hosting env world protocol owner mayPut)
    {reference : ObjectRef} {state : System Owner} (holds : pipeline.Holds env sent state) :
    (pipeline.fetch env reference).Safe world protocol owner (Prog.Delivers (fun result later =>
      Fetched reference result.1 later ∧ result.2.Holds env sent later)) state := by
  apply Prog.Safe.delivers_bind (host.upload_safe holds)
  intro uploaded later _ _ holds'
  apply Prog.Safe.delivers_bind host.fetch_safe.attempt_delivers
  intro reply last moved _ fetched
  apply Prog.safe_ret_delivers
  intro final further _
  refine ⟨?_, holds'.stays host (protocol.trans moved further)⟩
  intro bytes done
  exact host.stays further rfl (fetched bytes done)

theorem Hosting.fetchBatch_safe (host : Hosting env world protocol owner mayPut)
    {batch : List ObjectRef} {state : System Owner} (holds : pipeline.Holds env sent state) :
    (pipeline.fetchBatch env batch).Safe world protocol owner (Prog.Delivers (fun result later =>
      (∀ pages, result.1 = .ok pages → List.Forall₂ (fun (page : ObjectRef) bytes =>
        later.content (.object page.digest) = some bytes) batch pages) ∧
        result.2.Holds env sent later)) state := by
  induction batch generalizing pipeline state with
  | nil =>
      apply Prog.safe_ret_delivers
      intro later moves _
      refine ⟨?_, holds.stays host moves⟩
      intro pages done
      cases done
      exact .nil
  | cons page batch ih =>
      apply Prog.Safe.delivers_bind (host.pipelineFetch_safe holds)
      intro result later _ _ ⟨fetched, holds'⟩
      rcases result with ⟨reply, pipeline'⟩
      cases reply with
      | error error =>
          apply Prog.safe_ret_delivers
          intro last moved _
          exact ⟨nofun, holds'.stays host moved⟩
      | ok bytes =>
          apply Prog.Safe.delivers_bind (ih holds')
          intro others last moved _ ⟨rest, holds''⟩
          apply Prog.safe_ret_delivers
          intro final further _
          refine ⟨?_, holds''.stays host further⟩
          intro pages done
          rcases others with ⟨reply, _⟩
          cases reply with
          | error error => cases done
          | ok more =>
              cases done
              refine .cons (host.stays (protocol.trans moved further) rfl (fetched bytes rfl)) ?_
              exact (rest more rfl).imp (fun _ _ known => host.stays further rfl known)

theorem keepReady_lookup {ready : AList (fun _ : Hash32 => Bytes)} {pages : List (ObjectRef × Bytes)}
    {digest : Hash32} {bytes : Bytes} (found : (keepReady ready pages).lookup digest = some bytes) :
    ready.lookup digest = some bytes ∨ ∃ page ∈ pages, page.1.digest = digest ∧ page.2 = bytes := by
  induction pages generalizing ready with
  | nil => exact .inl found
  | cons page pages ih =>
      rcases ih found with inserted | ⟨other, member, same⟩
      · by_cases this : digest = page.1.digest
        · subst this
          rw [AList.lookup_insert] at inserted
          exact .inr ⟨page, List.mem_cons_self, rfl, Option.some.inj inserted⟩
        · rw [AList.lookup_insert_ne this] at inserted
          exact .inl inserted
      · exact .inr ⟨other, List.mem_cons_of_mem _ member, same⟩

theorem pagePosition_eq_some {lists : List (List ObjectRef)} {digest : Hash32} {list position : Nat}
    (found : pagePosition lists digest = some (list, position)) :
    ∃ page rest, (lists.getD list []).drop position = page :: rest ∧ page.digest = digest := by
  unfold pagePosition at found
  cases outer : lists.findIdx? (fun pages => pages.any (fun page => page.digest = digest)) with
  | none =>
      rw [outer] at found
      cases found
  | some index =>
      rw [outer] at found
      rcases Option.map_eq_some_iff.mp found with ⟨place, inner, same⟩
      cases same
      rcases List.findIdx?_eq_some_iff_getElem.mp inner with ⟨bound, matching, _⟩
      exact ⟨_, _, List.drop_eq_getElem_cons bound, of_decide_eq_true matching⟩

theorem mem_of_batch {lists : List (List ObjectRef)} {list position count : Nat} {page : ObjectRef}
    (member : page ∈ ((lists.getD list []).drop position).take count) : ∃ pages ∈ lists, page ∈ pages := by
  have inside := List.mem_of_mem_drop (List.mem_of_mem_take member)
  rw [List.getD_eq_getElem?_getD] at inside
  cases found : lists[list]? with
  | none =>
      rw [found] at inside
      cases inside
  | some pages =>
      rw [found] at inside
      exact ⟨pages, List.mem_of_getElem? found, inside⟩

theorem Hosting.get_safe (host : Hosting env world protocol owner mayPut)
    {lists : List (List ObjectRef)} {reference : ObjectRef} {state : System Owner}
    (holds : pipeline.Holds env sent state) :
    (pipeline.get env lists reference).Safe world protocol owner (Prog.Delivers (fun result later =>
      Fetched reference result.1 later ∧ result.2.Holds env sent later)) state := by
  unfold Pipeline.get
  cases kept : pipeline.ready.lookup reference.digest with
  | some bytes =>
      apply Prog.safe_ret_delivers
      intro later moves _
      have holds' := holds.stays host moves
      refine ⟨?_, ?_, holds'.addressed, holds'.building⟩
      · intro found same
        cases same
        exact holds'.ready _ _ kept
      · intro digest found inside
        by_cases this : digest = reference.digest
        · rw [this, AList.lookup_erase] at inside
          cases inside
        · rw [AList.lookup_erase_ne this] at inside
          exact holds'.ready _ _ inside
  | none =>
      cases place : pagePosition lists reference.digest with
      | none => exact host.pipelineFetch_safe holds
      | some found =>
          rcases found with ⟨list, position⟩
          rcases pagePosition_eq_some place with ⟨page, rest, shape, same⟩
          have batch : ((lists.getD list []).drop position).take readAhead =
              page :: rest.take 7 := by
            rw [shape]
            rfl
          simp only [batch]
          apply Prog.Safe.delivers_bind (host.fetchBatch_safe holds)
          intro result later _ _ ⟨fetched, holds'⟩
          rcases result with ⟨reply, pipeline'⟩
          rcases reply with error | pages
          · exact Prog.safe_ret_delivers (fun last moved _ => ⟨nofun, holds'.stays host moved⟩)
          · rcases pages with _ | ⟨first, more⟩
            · exact Prog.safe_ret_delivers (fun last moved _ => ⟨nofun, holds'.stays host moved⟩)
            · have stored := fetched _ rfl
              apply Prog.safe_ret_delivers
              intro last moved _
              have holds'' := holds'.stays host moved
              cases stored with
              | cons firstStored moreStored =>
                  refine ⟨?_, ?_, holds''.addressed, holds''.building⟩
                  · intro bytes done
                    cases done
                    rw [← same]
                    exact host.stays moved rfl firstStored
                  · intro digest bytes inside
                    rcases keepReady_lookup inside with old | ⟨kept, member, rfl, rfl⟩
                    · exact holds''.ready _ _ old
                    · exact host.stays moved rfl (List.forall₂_zip moreStored member)

/-! Records handed to the builder. -/

theorem Pipeline.Holds.send {state : System Owner} {record : Record} {building : BuilderState}
    (holds : pipeline.Holds env sent state) (running : pipeline.builder = .ok building) :
    ({ (pipeline.deliver (building.push env record)).2 with
      builder := (pipeline.deliver (building.push env record)).1 } : Pipeline).Holds env
      (sent ++ [record]) state := by
  have asks : ∀ object ∈ (building.push env record).collect.1, object.Addressed env :=
    (push_asks emitting_addressed.toEmittingBelow building record).collect
  cases stopped : pipeline.stopped with
  | some error =>
      rcases deliver_stopped (building.push env record) stopped with ⟨result, bytes, same⟩
      rw [same]
      refine ⟨holds.ready, holds.addressed, ?_⟩
      intro impossible
      rw [stopped] at impossible
      cases impossible
  | none =>
      rw [deliver_running (building.push env record) stopped]
      refine ⟨holds.ready, ?_, ?_⟩
      · intro object member
        rcases List.mem_append.mp member with old | new
        · exact holds.addressed object old
        · exact asks object new
      · intro _
        rcases holds.building stopped with ⟨objects, built, root, kept⟩
        refine ⟨objects ++ (building.push env record).collect.1, ?_, ?_, ?_⟩
        · rw [pushAll_snoc_collect, built, running]
          rfl
        · rw [smallBytes_append, root]
        · intro object member
          rcases List.mem_append.mp member with old | new
          · rcases kept object old with queued | stored
            · exact .inl (List.mem_append_left _ queued)
            · exact .inr stored
          · exact .inl (List.mem_append_right _ new)

/-- A builder that has failed stays so, whatever else is sent. -/
theorem Pipeline.Holds.ignore {state : System Owner} {record : Record} {error : Error}
    (holds : pipeline.Holds env sent state) (failed : pipeline.builder = .error error) :
    pipeline.Holds env (sent ++ [record]) state := by
  refine ⟨holds.ready, holds.addressed, ?_⟩
  intro running
  rcases holds.building running with ⟨objects, built, root, kept⟩
  refine ⟨objects, ?_, root, kept⟩
  rw [pushAll_snoc_collect, built, failed]
  simp [Prog.resume]

theorem Hosting.send_safe (host : Hosting env world protocol owner mayPut) {record : Record}
    {state : System Owner} (holds : pipeline.Holds env sent state) :
    (pipeline.send env record).Safe world protocol owner (Prog.Delivers (fun result later =>
      result.1 = .ok () ∧ result.2.Holds env (sent ++ [record]) later ∨
        (∃ error, result.1 = .error error) ∧ result.2.Holds env sent later)) state := by
  apply Prog.Safe.delivers_bind (host.upload_safe holds)
  intro uploaded later _ _ holds'
  cases running : uploaded.builder with
  | ok building =>
      simp only
      apply Prog.safe_ret_delivers
      intro last moved _
      exact .inl ⟨rfl, (holds'.send running).stays host moved⟩
  | error error =>
      simp only
      apply host.choose_safe
      intro n last moved
      apply Prog.safe_ret_delivers
      intro final further _
      have holds'' := holds'.stays host (protocol.trans moved further)
      by_cases noticed : n = 0
      · exact .inr ⟨⟨_, if_pos noticed⟩, holds''⟩
      · exact .inl ⟨if_neg noticed, holds''.ignore running⟩

/-- The pipeline answers the producer as the merge step demands. -/
theorem Hosting.step_safe (host : Hosting env world protocol owner mayPut)
    {lists : List (List ObjectRef)} {served : EncodedObject → Prop} (op : MergeOp)
    {state : System Owner} (holds : pipeline.Holds env sent state)
    (stored : ∀ object, served object → state.content object.objectKey = some object.bytes) :
    (pipeline.step env lists op).Safe world protocol owner (Prog.Delivers (fun result later =>
      ∃ sent', MergeStep served (fun _ => True) op sent result.1 sent' ∧
        result.2.Holds env sent' later)) state := by
  cases op with
  | fetch reference =>
      apply (host.get_safe holds).weaken
      intro outcome later moves _ ⟨result, done, fetched, holds'⟩
      refine ⟨result, done, sent, ⟨rfl, ?_⟩, holds'⟩
      intro object present same
      cases reply : result.1 with
      | error error => exact .inr ⟨error, rfl, trivial⟩
      | ok bytes =>
          have found := fetched bytes reply
          have known := host.stays moves rfl (stored object present)
          rw [EncodedObject.objectKey, same, found] at known
          exact .inl (congrArg Except.ok (Option.some.inj known))
  | send record =>
      apply (host.send_safe holds).weaken
      intro outcome later _ _ ⟨result, done, given⟩
      rcases given with ⟨taken, holds'⟩ | ⟨⟨error, refused⟩, holds'⟩
      · exact ⟨result, done, sent ++ [record], .inl ⟨taken, rfl⟩, holds'⟩
      · exact ⟨result, done, sent, .inr ⟨rfl, error, refused, trivial⟩, holds'⟩

end Pipeline

section Merge

variable {env : Primitives} {Owner : Type} {world : World StoreOp StoreOp.Resp Owner (System Owner)}
  {protocol : Protocol (System Owner)} {owner : Owner} {mayPut : System Owner → Key → Bytes → Prop}

/-! Opening the inputs. -/

/-- The objects a state holds under their own keys. -/
def Held (state : System Owner) (object : EncodedObject) : Prop :=
  state.content object.objectKey = some object.bytes

theorem serving_held (lossless : env.Lossless) (state : System Owner) :
    Serving env (Held state) (fun _ => True) :=
  ⟨lossless, .inr (fun _ => trivial), fun _ _ _ => trivial⟩

/-- Readers of trees that hold these records. -/
def ReadersOf (env : Primitives) (served : EncodedObject → Prop) (readers : List RunReader)
    (lists : List (List Record)) : Prop :=
  List.Forall₂ (fun reader list => ∃ (tree : RunTree env) (objects : List EncodedObject),
    reader = tree.reader ∧ tree.Stores list objects ∧ tree.Readable served) readers lists

theorem mem_objectPuts {objects : List EncodedObject} {state : System Owner}
    (stored : AllStored (objectPuts objects) state) : ∀ object ∈ objects, Held state object :=
  fun _ member => stored _ (List.mem_map_of_mem member)

theorem decodeRuns_readers {state : System Owner} {runs : List (ObjectRef × Bytes)}
    {lists : List (List Record)} {readers : List RunReader}
    (inputs : List.Forall₂ (RunStored env state) runs lists)
    (decoded : decodeRuns env runs = .ok readers) : ReadersOf env (Held state) readers lists := by
  induction inputs generalizing readers with
  | nil =>
      cases decoded
      exact .nil
  | cons first _ ih =>
      rcases first with ⟨tree, objects, stores, rfl, stored⟩
      rcases bind_eq_ok.mp decoded with ⟨reader, one, rest⟩
      rcases bind_eq_ok.mp rest with ⟨others, many, done⟩
      cases done
      have readable := stores.readable (mem_objectPuts stored)
      rcases readable.decode with opened | ⟨_, error, failed⟩
      · rw [opened] at one
        cases one
        exact .cons ⟨tree, objects, rfl, stores, readable⟩ (ih many)
      · rw [failed] at one
        cases one

theorem withFetch_safe {α : Type} (host : Hosting env world protocol owner mayPut)
    {served : EncodedObject → Prop} {post : Except Error α → Prop} {code : Codec α}
    {state : System Owner} (stored : ∀ object, served object → Held state object)
    (meets : code.Meets (Serves served (fun _ => True)) post) :
    (withFetch env code).Safe world protocol owner (fun outcome _ => post outcome) state := by
  have lifted : (withFetch env code).Safe world protocol owner (fun outcome later =>
      post outcome ∧ ∀ object, served object → Held later object) state := by
    apply meets.safe_lift _ _ stored
    · intro reference now kept
      apply host.fetch_safe.attempt_delivers.weaken
      intro outcome later moves _ ⟨reply, done, fetched⟩
      refine ⟨reply, done, ?_, fun object present => host.stays moves rfl (kept object present)⟩
      intro object present same
      cases reply with
      | error error => exact .inr ⟨error, rfl, trivial⟩
      | ok bytes =>
          have found := fetched bytes rfl
          have known := host.stays moves rfl (kept object present)
          rw [EncodedObject.objectKey, same, found] at known
          exact .inl (congrArg Except.ok (Option.some.inj known))
    · intro now later moves _ kept object present
      exact host.stays moves rfl (kept object present)
  exact lifted.weaken (fun _ _ _ _ holds => holds.1)

/-! How many records the pages of a run can hold. -/

theorem Page.records_length {page : Page env} (fits : ∀ record ∈ page.records, record.Fits) :
    page.records.length ≤ maxPageRecords := by
  rcases encodePage_eq_ok page.encoded with ⟨_, _, small, _⟩
  have total := pageBytes_length page.records
  have each := flatMap_recordBytes_length page.records (fun record member => (fits record member).key)
  rw [maxPageRecords, Nat.le_div_iff_mul_le (by decide)]
  unfold Page.records at total each ⊢
  omega

def RunTree.pages (tree : RunTree env) : List (Page env) :=
  (List.finRange 16).flatMap (fun shard => (tree.part shard).leaves.flatMap Leaf.pages)

theorem RunTree.pageRefs_flatten (tree : RunTree env) :
    ((List.finRange 16).map (fun shard => (tree.part shard).pageRefs)).flatten =
      tree.pages.map (fun page => page.object.reference) := by
  simp only [RunTree.pages, List.map_flatMap, ← List.flatMap_def]
  rfl

theorem RunTree.Stores.perm_pages {tree : RunTree env} {records : List Record}
    {objects : List EncodedObject} (stores : tree.Stores records objects) :
    records.Perm (tree.pages.flatMap Page.records) := by
  have bins := perm_flatMap_filter (fun record : Record => partition env record.key)
    (List.nodup_finRange 16) (fun record (_ : record ∈ records) => List.mem_finRange _)
  simp only [← stores.split] at bins
  simp only [RunTree.pages, List.flatMap_assoc]
  exact bins

theorem length_flatMap_le {α β : Type} {content : α → List β} {items : List α} {bound : Nat}
    (each : ∀ item ∈ items, (content item).length ≤ bound) :
    (items.flatMap content).length ≤ items.length * bound := by
  induction items with
  | nil => simp
  | cons item items ih =>
      have rest := ih (fun other member => each other (List.mem_cons_of_mem _ member))
      have first := each item List.mem_cons_self
      rw [List.flatMap_cons, List.length_append, List.length_cons, Nat.succ_mul]
      omega

theorem RunTree.Stores.length_le {tree : RunTree env} {records : List Record}
    {objects : List EncodedObject} (stores : tree.Stores records objects) :
    records.length ≤ tree.pages.length * maxPageRecords := by
  rw [stores.perm_pages.length_eq]
  apply length_flatMap_le
  intro page member
  apply Page.records_length
  intro record inside
  exact stores.fits record (stores.perm_pages.mem_iff.mpr (List.mem_flatMap.mpr ⟨page, member, inside⟩))

/-- The pages listed for a merge are enough for all its records. -/
theorem Hosting.pageLists_safe (host : Hosting env world protocol owner mayPut)
    (lossless : env.Lossless) {served : EncodedObject → Prop} {readers : List RunReader}
    {lists : List (List Record)} {state : System Owner}
    (stored : ∀ object, served object → Held state object)
    (opened : ReadersOf env served readers lists) :
    (pageLists env readers).Safe world protocol owner (Prog.Returns (fun pages _ =>
      lists.flatten.length ≤ pages.flatten.length * maxPageRecords)) state := by
  induction opened generalizing state with
  | nil => exact Prog.safe_ret_returns (fun _ _ _ => Nat.zero_le _)
  | cons first _ ih =>
      rcases first with ⟨tree, objects, rfl, stores, readable⟩
      have serving : Serving env served (fun _ => True) :=
        ⟨lossless, .inr (fun _ => trivial), fun _ _ _ => trivial⟩
      have walked := withFetch_safe host stored (dataPages_meets serving readable)
      have walked' : (withFetch env (tree.reader.dataPages env)).Safe world protocol owner
          (Prog.Returns (fun pages _ => pages =
            (List.finRange 16).map (fun shard => (tree.part shard).pageRefs))) state := by
        apply walked.weaken
        intro outcome later _ _ yielded pages done
        rcases yielded with ⟨value, same, rfl⟩ | ⟨error, failed, _⟩
        · rw [same] at done
          exact (Except.ok.inj done).symm
        · rw [failed] at done
          cases done
      apply walked'.returns_bind
      intro pages later moves _ same
      subst same
      apply (ih (fun object member => host.stays moves rfl (stored object member))).returns_bind
      intro others last _ _ rest
      apply Prog.safe_ret_returns
      intro _ _ _
      have here := stores.length_le
      rw [List.flatten_append, List.length_append, List.flatten_cons, List.length_append,
        tree.pageRefs_flatten, List.length_map, Nat.add_mul]
      omega

/-! The end of the record stream. -/

/-- The builder has finished and what it emitted is queued or stored. -/
structure Pipeline.Finished (env : Primitives) (records : List Record) (built : Except Error ObjectRef)
    (pipeline : Pipeline) (state : System Owner) : Prop where
  addressed : ∀ object ∈ pipeline.pending, object.Addressed env
  building : pipeline.stopped = none → ∃ objects,
    (RunBuilder.build env records).collect = (objects, built) ∧
    pipeline.rootBytes = smallBytes [] objects ∧
    ∀ object ∈ objects, object ∈ pipeline.pending ∨ Held state object

theorem Pipeline.Holds.finish {pipeline : Pipeline} {records : List Record} {state : System Owner}
    (holds : pipeline.Holds env records state) :
    (pipeline.finish env).2.Finished env records (pipeline.finish env).1 state := by
  unfold Pipeline.finish
  cases running : pipeline.builder with
  | error error =>
      refine ⟨holds.addressed, ?_⟩
      intro alive
      rcases holds.building alive with ⟨objects, built, root, kept⟩
      refine ⟨objects, ?_, root, kept⟩
      rw [RunBuilder.build, Prog.bind_eq, Prog.collect_bind, built, running]
      simp [Prog.resume]
  | ok building =>
      have asks : ∀ object ∈ (building.finish env).collect.1, object.Addressed env :=
        (finish_asks emitting_addressed building).collect
      cases stopped : pipeline.stopped with
      | some error =>
          rcases deliver_stopped (building.finish env) stopped with ⟨result, bytes, same⟩
          simp only [same]
          refine ⟨holds.addressed, ?_⟩
          intro impossible
          rw [stopped] at impossible
          cases impossible
      | none =>
          simp only [deliver_running (building.finish env) stopped]
          refine ⟨?_, ?_⟩
          · intro object member
            rcases List.mem_append.mp member with old | new
            · exact holds.addressed object old
            · exact asks object new
          · intro _
            rcases holds.building stopped with ⟨objects, built, root, kept⟩
            refine ⟨objects ++ (building.finish env).collect.1, ?_, ?_, ?_⟩
            · rw [RunBuilder.build, Prog.bind_eq, Prog.collect_bind, built, running]
              rfl
            · rw [smallBytes_append, root]
            · intro object member
              rcases List.mem_append.mp member with old | new
              · rcases kept object old with queued | known
                · exact .inl (List.mem_append_left _ queued)
                · exact .inr known
              · exact .inl (List.mem_append_right _ new)

/-- Once the queue is empty, either all is stored or the uploader has failed. -/
theorem Hosting.uploadRest_safe (host : Hosting env world protocol owner mayPut)
    {pipeline : Pipeline} {records : List Record} {built : Except Error ObjectRef}
    {state : System Owner} (finished : pipeline.Finished env records built state) :
    pipeline.uploadRest.Safe world protocol owner (Prog.Delivers (fun uploaded later =>
      uploaded.stopped = none → ∃ objects, (RunBuilder.build env records).collect = (objects, built) ∧
        uploaded.rootBytes = smallBytes [] objects ∧ ∀ object ∈ objects, Held later object)) state := by
  have puts : (putAll pipeline.pending.length (objectPuts pipeline.pending)).Safe world protocol owner
      (Prog.Returns (fun _ later => AllStored (objectPuts pipeline.pending) later)) state :=
    host.putAll_safe (Nat.le_of_eq (List.length_map _))
    (by
      intro object member
      rcases List.mem_map.mp member with ⟨_, _, rfl⟩
      rfl)
    (by
      intro object member
      rcases List.mem_map.mp member with ⟨queued, inside, rfl⟩
      exact host.object state queued (finished.addressed queued inside))
  apply Prog.Safe.delivers_bind puts.attempt_delivers
  intro outcome later moves _ stored
  cases outcome with
  | error error => exact Prog.safe_ret_delivers (fun _ _ _ => nofun)
  | ok value =>
      apply Prog.safe_ret_delivers
      intro last moved _ alive
      rcases finished.building alive with ⟨objects, granted, root, kept⟩
      refine ⟨objects, granted, root, ?_⟩
      intro object member
      apply host.stays moved rfl
      rcases kept object member with queued | known
      · exact stored value rfl _ (List.mem_map_of_mem queued)
      · exact host.stays moves rfl known

/-- The last small object of a build is its root. -/
theorem smallBytes_build {records : List Record} {objects : List EncodedObject} {root : ObjectRef}
    (granted : (RunBuilder.build env records).collect = (objects, .ok root)) :
    smallBytes [] objects = (objects.getLast?.map EncodedObject.bytes).getD [] := by
  rcases build_granted granted with ⟨tree, stores, _⟩
  have last := stores.root
  have size : tree.object.bytes.length < 4096 := by
    rw [(verifyObject_makeObject tree.made).1, encodeRoot_length (by simp [partitions])]
    decide
  rcases List.getLast?_eq_some_iff.mp last with ⟨front, rfl⟩
  rw [smallBytes_append, smallBytes, List.foldl_cons, List.foldl_nil, if_pos size, last]
  rfl

/-- The pipeline run by a producer, from a state that holds the inputs. -/
theorem Hosting.feed_safe (host : Hosting env world protocol owner mayPut) {pages : List (List ObjectRef)}
    {producer : MergeProg SummaryBuilder} {post : Except Error SummaryBuilder → List Record → Prop}
    {base state : System Owner}
    (produced : producer.Follows (MergeStep (Held base) (fun _ => True)) post [])
    (reached : protocol.le base state) :
    (Prog.handle (Pipeline.step env pages) Pipeline.start producer).Safe world protocol owner
      (Prog.Delivers (fun result later => ∃ sent, post result.1 sent ∧ result.2.Holds env sent later))
      state := by
  refine (produced.safe_handle
    (fun sent (pipeline : Pipeline) now => pipeline.Holds env sent now ∧
      ∀ object, Held base object → Held now object) ?_ ?_
    ⟨Pipeline.holds_start state, fun object present => host.stays reached rfl present⟩).weaken ?_
  · intro op sent pipeline now ⟨holds, kept⟩
    apply (host.step_safe op holds kept).weaken
    intro outcome later moved _ ⟨result, done, sent', stepped, holds'⟩
    exact ⟨result, done, sent', stepped, holds',
      fun object present => host.stays moved rfl (kept object present)⟩
  · intro sent pipeline now later moved _ ⟨holds, kept⟩
    exact ⟨holds.stays host moved, fun object present => host.stays moved rfl (kept object present)⟩
  · exact fun outcome later _ _ ⟨result, done, sent, ended, holds, _⟩ => ⟨result, done, sent, ended, holds⟩

theorem ReadersOf.scans {served : EncodedObject → Prop} {readers : List RunReader}
    {lists : List (List Record)} (opened : ReadersOf env served readers lists) :
    List.Forall₂ (fun reader list => (RunReader.scanner reader).Scans env served list) readers lists :=
  opened.imp (fun _ _ ⟨tree, _, same, stores, readable⟩ => same ▸ tree.scanner_scans stores readable)

/-- A finished merge is the build of the merged records, durable as a whole. -/
theorem Hosting.mergeRuns_safe (host : Hosting env world protocol owner mayPut)
    (lossless : env.Lossless) {runs : List (ObjectRef × Bytes)} {lists : List (List Record)}
    {merged : List Record} {expectedKeys : UInt64} {state : System Owner}
    (inputs : List.Forall₂ (RunStored env state) runs lists)
    (merges : Interleaves Record.version merged lists)
    (allowed : ∀ built stored, buildRun env merged expectedKeys = .ok (built, stored) →
      ∀ later, protocol.le state later → RunStored env later (built.root, built.rootBytes) merged →
        ∀ object ∈ stored, mayPut later object.1 object.2) :
    (mergeRuns env runs expectedKeys).Safe world protocol owner (Prog.Returns (fun built later =>
      ∃ stored, buildRun env merged expectedKeys = .ok (built, stored) ∧ AllStored stored later))
      state := by
  apply Prog.safe_ofExcept_bind
  intro readers decoded
  have opened := decodeRuns_readers inputs decoded
  apply (host.pageLists_safe lossless (fun _ present => present) opened).returns_bind
  intro pages middle moves _ enough
  have fuel : merged.length < mergeFuel pages := by
    rw [merges.perm.length_eq, mergeFuel]
    omega
  have produced :=
    (produce_confined (serving_held lossless state) expectedKeys fuel opened.scans merges).follows
  apply (host.feed_safe produced moves).delivers_returns.returns_bind
  intro result fedState fedMoves _ ⟨sent, ended, holds⟩
  apply (host.uploadRest_safe holds.finish).delivers_returns.returns_bind
  intro uploaded last lastMoves _ complete
  apply Prog.safe_ofExcept_bind
  intro summary summarised
  apply Prog.safe_ofExcept_bind
  intro root built
  rcases ended with ⟨empty, made, rfl, same⟩ | ⟨error, failed, _⟩
  · have same' : summary = empty.addAll env (distinctKeys sent) :=
      Except.ok.inj (summarised.symm.trans same)
    subst same'
    cases alive : uploaded.stopped with
    | some error => exact Prog.safe_fail_returns
    | none =>
        rcases complete alive with ⟨objects, granted, small, stored⟩
        replace granted : (RunBuilder.build env sent).collect = (objects, .ok root) :=
          granted.trans (congrArg (Prod.mk objects) built)
        have whole := buildRun_eq_ok.mpr ⟨empty, objects, root, made, granted, rfl, rfl⟩
        have immutable := buildRun_immutable whole
        have reached := protocol.trans moves (protocol.trans fedMoves lastMoves)
        have durable : AllStored (objectPuts objects) last := by
          intro put member
          rcases List.mem_map.mp member with ⟨inner, inside, rfl⟩
          exact stored inner inside
        have may := allowed _ _ whole last reached (runStored_of_objects granted durable)
        apply Prog.Safe.returns_bind (host.putAll_safe (Nat.le_refl _)
          (fun object member => immutable object (List.mem_append_right _ member))
          (fun object member => may object (List.mem_append_right _ member)))
        intro _ final finalMoves _ shardsStored
        apply Prog.safe_ret_returns
        intro later laterMoves _
        rw [small, smallBytes_build granted]
        refine ⟨_, whole, ?_⟩
        intro object member
        apply host.stays laterMoves (immutable object member)
        rcases List.mem_append.mp member with inObjects | inShards
        · exact host.stays finalMoves (immutable object member) (durable object inObjects)
        · exact shardsStored object inShards
  · rw [failed] at summarised
    cases summarised

end Merge

end Fossil

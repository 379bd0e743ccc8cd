import Fossil.Rebuild

/-! The tasks of a merge in a store at rest, whatever its inputs are.

Everything a merge adds to the store is an object its builder has emitted, and the
uploader stops only where something else is stored under the key of such an object. -/

namespace Fossil

/-- Something else is stored where one of these objects belongs, or is to be stored there. -/
def Conflict (puts : List (Key × Bytes)) (base : ArchiveSystem) : Prop :=
  ∃ put ∈ puts, ∃ bytes, bytes ≠ put.2 ∧ (base.content put.1 = some bytes ∨ (put.1, bytes) ∈ puts)

/-- What is stored was stored from the start or is one of these objects. -/
structure Grown (puts : List (Key × Bytes)) (base state : ArchiveSystem) : Prop where
  kept : ∀ key bytes, base.content key = some bytes → state.content key = some bytes
  fresh : ∀ key bytes, state.content key = some bytes →
    base.content key = some bytes ∨ (key, bytes) ∈ puts

section

variable {env : Externals} {backend : Backend} {owner : Call} {puts more : List (Key × Bytes)}
  {base middle state : ArchiveSystem}

theorem Conflict.mono (conflict : Conflict puts base) (sub : ∀ put ∈ puts, put ∈ more) :
    Conflict more base := by
  obtain ⟨put, member, bytes, different, taken⟩ := conflict
  exact ⟨put, sub put member, bytes, different, taken.imp_right (sub _)⟩

theorem Grown.refl (base : ArchiveSystem) : Grown puts base base :=
  ⟨fun _ _ held => held, fun _ _ held => .inl held⟩

theorem Grown.mono (grown : Grown puts base state) (sub : ∀ put ∈ puts, put ∈ more) :
    Grown more base state :=
  ⟨grown.kept, fun key bytes held => (grown.fresh key bytes held).imp_right (sub _)⟩

theorem Grown.trans (first : Grown puts base middle) (second : Grown puts middle state) :
    Grown puts base state := by
  constructor
  · intro key bytes held
    exact second.kept key bytes (first.kept key bytes held)
  · intro key bytes held
    rcases second.fresh key bytes held with older | new
    · exact first.fresh key bytes older
    · exact .inr new

theorem Grown.tick (grown : Grown puts base state) (clock : Time) : Grown puts base (state.tick clock) :=
  ⟨grown.kept, grown.fresh⟩

theorem Grown.conflict {put : Key × Bytes} {stored : Bytes} (grown : Grown puts base state)
    (member : put ∈ puts) (held : state.content put.1 = some stored) (different : stored ≠ put.2) :
    Conflict puts base :=
  ⟨put, member, stored, different, grown.fresh _ _ held⟩

theorem AllStored.later {objects : List (Key × Bytes)} (grown : Grown puts middle state)
    (stored : AllStored objects middle) : AllStored objects state :=
  fun object member => grown.kept _ _ (stored object member)

/-! Create-only writes. -/

/-- A create-only write where something else is stored. -/
theorem System.putImmutable_taken {key : Key} {bytes stored : Bytes}
    (held : state.content key = some stored) (different : stored ≠ bytes) :
    ∃ error, state.putImmutable backend key bytes = (.error error, state) := by
  obtain ⟨entry, found, rfl⟩ := Option.map_eq_some_iff.mp held
  unfold System.putImmutable
  rw [found]
  dsimp only
  rw [if_pos different]
  split
  · exact ⟨_, rfl⟩
  · exact ⟨_, rfl⟩

theorem grown_putImmutable {put : Key × Bytes} (member : put ∈ puts)
    (same : ∀ stored, state.content put.1 = some stored → stored = put.2) :
    Grown puts state (state.putImmutable backend put.1 put.2).2 := by
  obtain ⟨_, content⟩ := System.putImmutable_vacant same
  constructor
  · intro key bytes held
    rw [content]
    split
    · next here => rw [same bytes (here ▸ held)]
    · exact held
  · intro key bytes held
    rw [content] at held
    split at held
    · next here =>
        cases held
        exact .inr (here ▸ member)
    · exact .inl held

theorem follows_putImmutable {put : Key × Bytes} (grown : Grown puts base state) (member : put ∈ puts) :
    (putImmutable put.1 put.2).Follows ((calm env.toPrimitives backend).step owner)
      (fun outcome after => Grown puts state after ∧
        (outcome = .ok () ∧ after.content put.1 = some put.2 ∨
          (∃ error, outcome = .error error) ∧ Conflict puts base)) state := by
  rintro reply after ⟨clock, _, outcome⟩
  cases outcome with
  | done =>
      apply Prog.follows_ofExcept
      show Grown puts state ((state.tick clock).putImmutable backend put.1 put.2).2 ∧
        (((state.tick clock).putImmutable backend put.1 put.2).1 = .ok () ∧
          ((state.tick clock).putImmutable backend put.1 put.2).2.content put.1 = some put.2 ∨
        (∃ error, ((state.tick clock).putImmutable backend put.1 put.2).1 = .error error) ∧ Conflict puts base)
      have later : Grown puts state (state.tick clock) := (Grown.refl state).tick clock
      by_cases taken : ∃ stored, (state.tick clock).content put.1 = some stored ∧ stored ≠ put.2
      · obtain ⟨stored, held, different⟩ := taken
        obtain ⟨error, stops⟩ := @System.putImmutable_taken backend _ _ _ _ held different
        rw [stops]
        exact ⟨later, .inr ⟨⟨error, rfl⟩, grown.conflict member held different⟩⟩
      · push Not at taken
        obtain ⟨done, content⟩ := @System.putImmutable_vacant backend _ _ _ taken
        exact ⟨later.trans (grown_putImmutable member taken), .inl ⟨done, (content put.1).trans (if_pos rfl)⟩⟩
  | lost _ _ allowed => exact allowed.elim
  | unacknowledged _ _ allowed => exact allowed.elim

theorem follows_putAll {fuel : Nat} {objects : List (Key × Bytes)} (enough : objects.length ≤ fuel)
    (listed : ∀ object ∈ objects, object ∈ puts) (grown : Grown puts base state) :
    (putAll fuel objects).Follows ((calm env.toPrimitives backend).step owner)
      (fun outcome after => Grown puts state after ∧
        (outcome = .ok () ∧ AllStored objects after ∨
          (∃ error, outcome = .error error) ∧ Conflict puts base)) state := by
  induction fuel generalizing objects state with
  | zero =>
      obtain rfl : objects = [] := List.length_eq_zero_iff.mp (Nat.le_zero.mp enough)
      exact ⟨.refl state, .inl ⟨rfl, nofun⟩⟩
  | succ fuel ih =>
      apply follows_choose
      intro n clock _
      have later : Grown puts state (state.tick clock) := (Grown.refl state).tick clock
      cases found : objects[n % objects.length]? with
      | none =>
          have none : objects = [] := by
            by_contra some
            have positive := List.length_pos_iff.mpr some
            have beyond := List.getElem?_eq_none_iff.mp found
            exact absurd (Nat.mod_lt n positive) (Nat.not_lt.mpr beyond)
          subst none
          exact ⟨later, .inl ⟨rfl, nofun⟩⟩
      | some object =>
          obtain ⟨bound, here⟩ := List.getElem?_eq_some_iff.mp found
          have member := List.mem_of_getElem? found
          apply Prog.Follows.bind
          apply (follows_putImmutable (grown.tick clock) (listed object member)).weaken
          rintro outcome after ⟨moved, ⟨rfl, stored⟩ | ⟨⟨error, rfl⟩, conflict⟩⟩
          · have smaller : (objects.eraseIdx (n % objects.length)).length ≤ fuel := by
              rw [List.length_eraseIdx_of_lt bound]
              omega
            apply (ih smaller (fun other inside => listed other (List.mem_of_mem_eraseIdx inside))
              ((grown.tick clock).trans moved)).weaken
            rintro outcome final ⟨moved', ended⟩
            refine ⟨later.trans (moved.trans moved'), ended.imp_left ?_⟩
            rintro ⟨rfl, rest⟩
            refine ⟨rfl, ?_⟩
            intro other inside
            obtain ⟨place, within, same⟩ := List.getElem_of_mem inside
            by_cases this : place = n % objects.length
            · subst this
              rw [← same, here]
              exact moved'.kept _ _ stored
            · exact rest other (List.mem_eraseIdx_iff_getElem.mpr ⟨place, within, this, same⟩)
          · exact ⟨later.trans moved, .inr ⟨⟨error, rfl⟩, conflict⟩⟩

/-! What a fetch returns. -/

/-- The checks of a fetch, before and after its read. -/
def ObjectRef.Accepts (env : Primitives) (reference : ObjectRef) (bytes : Bytes) : Prop :=
  ¬ (reference.length.toNat = 0 ∨ reference.length.toNat > pageLimit ∨ reference.digest = Fixed.zero) ∧
    bytes.length = reference.length.toNat ∧ env.sha256 bytes = reference.digest

theorem view_eq_ok {reference : ObjectRef} {bytes : Bytes} :
    state.view env.toPrimitives backend owner reference = .ok bytes ↔
      reference.Accepts env.toPrimitives bytes ∧ state.content (.object reference.digest) = some bytes := by
  unfold System.view fetch
  dsimp only
  rw [Prog.run_guard_eq_ok, Prog.bind_eq, Prog.run_bind_eq_ok]
  constructor
  · rintro ⟨valid, found, read, checked⟩
    rw [run_getBounded] at read
    obtain ⟨same, done⟩ := Prog.run_guard_eq_ok.mp checked
    cases done
    push Not at same
    exact ⟨⟨valid, same⟩, System.getBounded_eq_ok read⟩
  · rintro ⟨⟨valid, length, digest⟩, held⟩
    refine ⟨valid, bytes, ?_, Prog.run_guard_eq_ok.mpr ⟨by simp [length, digest], rfl⟩⟩
    exact (run_getBounded _ _ _).trans (replies_getBounded held (Nat.le_of_eq length))

theorem follows_fetch (reference : ObjectRef) :
    (Prog.attempt (fetch env.toPrimitives reference)).Follows ((calm env.toPrimitives backend).step owner)
      (fun outcome after => ∃ clock, after = state.tick clock ∧
        outcome = .ok (state.view env.toPrimitives backend owner reference)) state := by
  apply Prog.Follows.attempt
  apply follows_reads state (fetch_reads reference)
  exact fun later _ => ⟨later, rfl, rfl⟩

/-! The tasks after some records. -/

/-- What the builder has emitted for these records. -/
def emitted (env : Primitives) (sent : List Record) : List EncodedObject :=
  (BuilderState.start.pushAll env sent).collect.1

/-- A fetch of some reference with this digest finds these bytes. -/
def Shelved (env : Primitives) (state : ArchiveSystem) (digest : Hash32) (bytes : Bytes) : Prop :=
  state.content (.object digest) = some bytes ∧
    ∃ reference : ObjectRef, reference.digest = digest ∧ reference.Accepts env bytes

structure Pipeline.Works (env : Primitives) (base : ArchiveSystem) (sent : List Record)
    (pipeline : Pipeline) (state : ArchiveSystem) : Prop where
  grown : Grown (objectPuts (emitted env sent)) base state
  queue : ∀ object ∈ pipeline.pending, object ∈ emitted env sent
  ready : ∀ digest bytes, pipeline.ready.lookup digest = some bytes → Shelved env state digest bytes
  halted : pipeline.stopped ≠ none → Conflict (objectPuts (emitted env sent)) base
  building : pipeline.stopped = none →
    (BuilderState.start.pushAll env sent).collect.2 = pipeline.builder ∧
    pipeline.rootBytes = smallBytes [] (emitted env sent) ∧
    ∀ object ∈ emitted env sent, object ∈ pipeline.pending ∨ Held state object

variable {sent : List Record} {pipeline : Pipeline}

theorem emitted_snoc (env : Primitives) (sent : List Record) (record : Record) :
    ∀ object ∈ emitted env sent, object ∈ emitted env (sent ++ [record]) := by
  intro object member
  rw [emitted, pushAll_snoc_collect]
  exact List.mem_append_left _ member

theorem objectPuts_subset {objects others : List EncodedObject} (sub : ∀ object ∈ objects, object ∈ others) :
    ∀ put ∈ objectPuts objects, put ∈ objectPuts others := by
  intro put member
  obtain ⟨object, inside, rfl⟩ := List.mem_map.mp member
  exact List.mem_map_of_mem (sub object inside)

/-- Nothing stored is lost or replaced. -/
def Preserves (state after : ArchiveSystem) : Prop :=
  ∀ key bytes, state.content key = some bytes → after.content key = some bytes

theorem Preserves.trans {after : ArchiveSystem} (first : Preserves base state) (second : Preserves state after) :
    Preserves base after :=
  fun key bytes held => second key bytes (first key bytes held)

theorem Preserves.view {reference : ObjectRef} {bytes : Bytes} (preserves : Preserves base state)
    (found : base.view env.toPrimitives backend owner reference = .ok bytes) :
    state.view env.toPrimitives backend owner reference = .ok bytes := by
  obtain ⟨accepts, held⟩ := view_eq_ok.mp found
  exact view_eq_ok.mpr ⟨accepts, preserves _ _ held⟩

theorem Preserves.shelved {env : Primitives} {digest : Hash32} {bytes : Bytes} (preserves : Preserves base state)
    (shelved : Shelved env base digest bytes) : Shelved env state digest bytes :=
  ⟨preserves _ _ shelved.1, shelved.2⟩

theorem shelved_of_view {reference : ObjectRef} {bytes : Bytes}
    (found : state.view env.toPrimitives backend owner reference = .ok bytes) :
    Shelved env.toPrimitives state reference.digest bytes := by
  obtain ⟨accepts, held⟩ := view_eq_ok.mp found
  exact ⟨held, reference, rfl, accepts⟩

theorem Pipeline.works_start (grown : Grown [] base state) :
    Pipeline.start.Works env.toPrimitives base [] state := by
  refine ⟨grown, nofun, nofun, fun stopped => absurd rfl stopped, fun _ => ⟨rfl, rfl, nofun⟩⟩

theorem Pipeline.Works.moves {after : ArchiveSystem} (works : pipeline.Works env.toPrimitives base sent state)
    (moved : Grown (objectPuts (emitted env.toPrimitives sent)) state after) :
    pipeline.Works env.toPrimitives base sent after := by
  refine ⟨works.grown.trans moved, works.queue, ?_, works.halted, ?_⟩
  · exact fun digest bytes found => Preserves.shelved moved.kept (works.ready digest bytes found)
  · intro running
    obtain ⟨builder, root, kept⟩ := works.building running
    exact ⟨builder, root, fun object member => (kept object member).imp_right (moved.kept _ _)⟩

theorem Pipeline.Works.tick (works : pipeline.Works env.toPrimitives base sent state) (clock : Time) :
    pipeline.Works env.toPrimitives base sent (state.tick clock) :=
  works.moves ((Grown.refl state).tick clock)

theorem Pipeline.Works.uploaded {index : Nat} {object : EncodedObject}
    (works : pipeline.Works env.toPrimitives base sent state)
    (found : pipeline.pending[index]? = some object) (stored : Held state object) :
    ({ pipeline with pending := pipeline.pending.eraseIdx index } : Pipeline).Works
      env.toPrimitives base sent state := by
  refine ⟨works.grown, ?_, works.ready, works.halted, ?_⟩
  · exact fun other member => works.queue other (List.mem_of_mem_eraseIdx member)
  · intro running
    obtain ⟨builder, root, kept⟩ := works.building running
    refine ⟨builder, root, ?_⟩
    intro other member
    rcases kept other member with queued | known
    · obtain ⟨bound, same⟩ := List.getElem?_eq_some_iff.mp found
      obtain ⟨place, inside, here⟩ := List.getElem_of_mem queued
      by_cases this : place = index
      · subst this
        rw [← here, same]
        exact .inr stored
      · exact .inl (List.mem_eraseIdx_iff_getElem.mpr ⟨place, inside, this, here⟩)
    · exact .inr known

theorem Pipeline.Works.stop {error : Error} (works : pipeline.Works env.toPrimitives base sent state)
    (conflict : Conflict (objectPuts (emitted env.toPrimitives sent)) base) :
    ({ pipeline with pending := [], stopped := some error } : Pipeline).Works env.toPrimitives base sent state :=
  ⟨works.grown, nofun, works.ready, fun _ => conflict, nofun⟩

/-- The program returns, and the tasks go on. -/
abbrev Working {α : Type} (env : Externals) (backend : Backend) (owner : Call)
    (property : α → ArchiveSystem → Prop) (prog : StoreProg α) (state : ArchiveSystem) : Prop :=
  prog.Follows ((calm env.toPrimitives backend).step owner)
    (fun outcome after => ∃ value, outcome = .ok value ∧ property value after) state

theorem Working.bind {α β : Type} {middle : α → ArchiveSystem → Prop} {final : β → ArchiveSystem → Prop}
    {prog : StoreProg α} {next : α → StoreProg β}
    (first : Working env backend owner middle prog state)
    (rest : ∀ value after, middle value after → Working env backend owner final (next value) after) :
    Working env backend owner final (prog.bind next) state := by
  apply Prog.Follows.bind
  apply first.weaken
  rintro outcome after ⟨value, rfl, holds⟩
  exact rest value after holds

theorem working_upload {fuel : Nat} (works : pipeline.Works env.toPrimitives base sent state) :
    Working env backend owner (fun uploaded after =>
      uploaded.Works env.toPrimitives base sent after ∧ Preserves state after)
      (Pipeline.upload fuel pipeline) state := by
  induction fuel generalizing pipeline state with
  | zero => exact ⟨pipeline, rfl, works, fun _ _ held => held⟩
  | succ fuel ih =>
      apply follows_choose
      intro n clock _
      cases found : pipeline.pending[n]? with
      | none => exact ⟨pipeline, rfl, works.tick clock, fun _ _ held => held⟩
      | some object =>
          have queued := works.queue object (List.mem_of_getElem? found)
          have put := @follows_putImmutable env backend owner _ _ _ (object.objectKey, object.bytes)
            (works.grown.tick clock) (List.mem_map_of_mem queued)
          apply Prog.Follows.bind
          apply Prog.Follows.attempt
          apply put.weaken
          rintro outcome after ⟨moved, ⟨rfl, stored⟩ | ⟨⟨error, rfl⟩, conflict⟩⟩
          · apply (ih (((works.tick clock).moves moved).uploaded found stored)).weaken
            rintro outcome final ⟨uploaded, rfl, works', preserves⟩
            exact ⟨uploaded, rfl, works', Preserves.trans moved.kept preserves⟩
          · exact ⟨_, rfl, ((works.tick clock).moves moved).stop conflict, moved.kept⟩

/-- A fetch is answered from the store at that moment. -/
theorem working_fetch {reference : ObjectRef} (works : pipeline.Works env.toPrimitives base sent state) :
    Working env backend owner (fun result after =>
      (∀ bytes, result.1 = .ok bytes ↔ after.view env.toPrimitives backend owner reference = .ok bytes) ∧
        result.2.Works env.toPrimitives base sent after ∧ Preserves state after)
      (pipeline.fetch env.toPrimitives reference) state := by
  apply (working_upload works).bind
  rintro uploaded middle ⟨works', preserves⟩
  apply Prog.Follows.bind
  apply (follows_fetch reference).weaken
  rintro outcome after ⟨clock, rfl, rfl⟩
  refine ⟨_, rfl, fun bytes => ?_, works'.tick clock, preserves⟩
  rw [view_eq_ok, view_eq_ok]
  rfl

/-- A batch succeeds when all its pages are stored, and returns them as they are stored. -/
theorem working_fetchBatch {batch : List ObjectRef} (works : pipeline.Works env.toPrimitives base sent state) :
    Working env backend owner (fun result after =>
      (∀ pages, result.1 = .ok pages →
        List.Forall₂ (fun page bytes => after.view env.toPrimitives backend owner page = .ok bytes) batch pages) ∧
      ((∀ page ∈ batch, ∃ bytes, state.view env.toPrimitives backend owner page = .ok bytes) →
        ∃ pages, result.1 = .ok pages) ∧
      result.2.Works env.toPrimitives base sent after ∧ Preserves state after)
      (pipeline.fetchBatch env.toPrimitives batch) state := by
  induction batch generalizing pipeline state with
  | nil =>
      refine ⟨_, rfl, ?_, fun _ => ⟨[], rfl⟩, works, fun _ _ held => held⟩
      rintro pages ⟨⟩
      exact .nil
  | cons page batch ih =>
      apply (working_fetch works).bind
      rintro ⟨reply, fetched⟩ middle ⟨found, works', preserves⟩
      cases reply with
      | error error =>
          refine ⟨_, rfl, nofun, ?_, works', preserves⟩
          intro stored
          obtain ⟨bytes, here⟩ := stored page List.mem_cons_self
          cases (found bytes).mpr (preserves.view here)
      | ok bytes =>
          apply (ih works').bind
          rintro ⟨others, rested⟩ after ⟨rest, completes, works'', preserves'⟩
          refine ⟨_, rfl, ?_, ?_, works'', preserves.trans preserves'⟩
          · intro pages done
            cases others with
            | error error => cases done
            | ok more =>
                cases done
                exact .cons (preserves'.view ((found bytes).mp rfl)) (rest more rfl)
          · intro stored
            obtain ⟨more, done⟩ := completes (fun other member => by
              obtain ⟨bytes, here⟩ := stored other (List.mem_cons_of_mem _ member)
              exact ⟨bytes, preserves.view here⟩)
            subst done
            exact ⟨_, rfl⟩

theorem Pipeline.Works.take {digest : Hash32} (works : pipeline.Works env.toPrimitives base sent state) :
    ({ pipeline with ready := pipeline.ready.erase digest } : Pipeline).Works env.toPrimitives base sent state := by
  refine ⟨works.grown, works.queue, ?_, works.halted, works.building⟩
  intro other bytes found
  by_cases this : other = digest
  · rw [this, AList.lookup_erase] at found
    cases found
  · rw [AList.lookup_erase_ne this] at found
    exact works.ready _ _ found

theorem Pipeline.Works.keep {batch : List ObjectRef} {pages : List Bytes}
    (works : pipeline.Works env.toPrimitives base sent state)
    (stored : List.Forall₂ (fun page bytes => state.view env.toPrimitives backend owner page = .ok bytes)
      batch pages) :
    ({ pipeline with ready := keepReady pipeline.ready (batch.zip pages) } : Pipeline).Works
      env.toPrimitives base sent state := by
  refine ⟨works.grown, works.queue, ?_, works.halted, works.building⟩
  intro digest bytes found
  rcases keepReady_lookup found with old | ⟨kept, member, rfl, rfl⟩
  · exact works.ready _ _ old
  · exact shelved_of_view (List.forall₂_zip stored member)

/-- The read-ahead returns what is stored, and succeeds wherever a fetch does if all
listed pages are stored. -/
theorem working_get {lists : List (List ObjectRef)} {reference : ObjectRef}
    (works : pipeline.Works env.toPrimitives base sent state) :
    Working env backend owner (fun result after =>
      (∀ bytes, result.1 = .ok bytes → Shelved env.toPrimitives after reference.digest bytes) ∧
      ((∀ list ∈ lists, ∀ page ∈ list, ∃ bytes, state.view env.toPrimitives backend owner page = .ok bytes) →
        ∀ bytes, state.view env.toPrimitives backend owner reference = .ok bytes → result.1 = .ok bytes) ∧
      result.2.Works env.toPrimitives base sent after ∧ Preserves state after)
      (pipeline.get env.toPrimitives lists reference) state := by
  unfold Pipeline.get
  cases kept : pipeline.ready.lookup reference.digest with
  | some bytes =>
      have shelved := works.ready _ _ kept
      refine ⟨_, rfl, ?_, ?_, works.take, fun _ _ held => held⟩
      · rintro _ ⟨⟩
        exact shelved
      · intro _ other found
        rw [Option.some.inj ((view_eq_ok.mp found).2.symm.trans shelved.1)]
  | none =>
      cases place : pagePosition lists reference.digest with
      | none =>
          apply (working_fetch works).weaken
          rintro outcome after ⟨result, rfl, found, works', preserves⟩
          refine ⟨result, rfl, ?_, fun _ bytes here => (found bytes).mpr (preserves.view here), works', preserves⟩
          exact fun bytes done => shelved_of_view ((found bytes).mp done)
      | some found =>
          obtain ⟨list, position⟩ := found
          obtain ⟨page, rest, shape, same⟩ := pagePosition_eq_some place
          have batch : ((lists.getD list []).drop position).take readAhead = page :: rest.take 7 := by
            rw [shape]
            rfl
          have listed : ∀ other ∈ page :: rest.take 7, ∃ list ∈ lists, other ∈ list := by
            rw [← batch]
            exact fun other member => mem_of_batch member
          simp only [batch]
          apply (working_fetchBatch works).bind
          rintro ⟨reply, fetched⟩ after ⟨stored, completes, works', preserves⟩
          cases reply with
          | error error =>
              refine ⟨_, rfl, nofun, ?_, works', preserves⟩
              intro all
              obtain ⟨_, wrong⟩ := completes (fun other member => by
                obtain ⟨list, inside, here⟩ := listed other member
                exact all list inside other here)
              cases wrong
          | ok pages =>
              cases stored pages rfl with
              | cons first more =>
                  have shelved := shelved_of_view first
                  rw [same] at shelved
                  refine ⟨_, rfl, ?_, ?_, works'.keep more, preserves⟩
                  · rintro _ ⟨⟩
                    exact shelved
                  · intro _ bytes found
                    rw [Option.some.inj (shelved.1.symm.trans (view_eq_ok.mp (preserves.view found)).2)]

/-! Records handed to the builder. -/

theorem Pipeline.Works.send {record : Record} {building : BuilderState}
    (works : pipeline.Works env.toPrimitives base sent state) (running : pipeline.builder = .ok building) :
    ({ (pipeline.deliver (building.push env.toPrimitives record)).2 with
      builder := (pipeline.deliver (building.push env.toPrimitives record)).1 } : Pipeline).Works
      env.toPrimitives base (sent ++ [record]) state := by
  have sub := emitted_snoc env.toPrimitives sent record
  have grown := works.grown.mono (objectPuts_subset sub)
  cases stopped : pipeline.stopped with
  | some error =>
      obtain ⟨result, bytes, same⟩ := deliver_stopped (building.push env.toPrimitives record) stopped
      rw [same]
      refine ⟨grown, fun object member => sub object (works.queue object member), works.ready, ?_, ?_⟩
      · exact fun _ => (works.halted (by simp [stopped])).mono (objectPuts_subset sub)
      · intro impossible
        cases stopped.symm.trans impossible
  | none =>
      obtain ⟨builder, root, kept⟩ := works.building stopped
      have step := @pushAll_snoc_collect env.toPrimitives .start sent record
      rw [builder, running] at step
      have after : emitted env.toPrimitives (sent ++ [record]) =
          emitted env.toPrimitives sent ++ (building.push env.toPrimitives record).collect.1 :=
        congrArg Prod.fst step
      rw [deliver_running (building.push env.toPrimitives record) stopped]
      refine ⟨grown, ?_, works.ready, fun halted => absurd stopped halted, fun _ => ⟨by rw [step]; rfl, ?_, ?_⟩⟩
      · intro object member
        rw [after]
        rcases List.mem_append.mp member with old | new
        · exact List.mem_append_left _ (works.queue object old)
        · exact List.mem_append_right _ new
      · rw [after, smallBytes_append, root]
      · intro object member
        rw [after] at member
        rcases List.mem_append.mp member with old | new
        · rcases kept object old with queued | stored
          · exact .inl (List.mem_append_left _ queued)
          · exact .inr stored
        · exact .inl (List.mem_append_right _ new)

theorem Pipeline.Works.ignore {record : Record} {error : Error}
    (works : pipeline.Works env.toPrimitives base sent state) (failed : pipeline.builder = .error error) :
    pipeline.Works env.toPrimitives base (sent ++ [record]) state := by
  have sub := emitted_snoc env.toPrimitives sent record
  refine ⟨works.grown.mono (objectPuts_subset sub), fun object member => sub object (works.queue object member),
    works.ready, fun halted => (works.halted halted).mono (objectPuts_subset sub), ?_⟩
  intro running
  obtain ⟨builder, root, kept⟩ := works.building running
  have step := @pushAll_snoc_collect env.toPrimitives .start sent record
  rw [builder, failed] at step
  have after : emitted env.toPrimitives (sent ++ [record]) = emitted env.toPrimitives sent :=
    (congrArg Prod.fst step).trans (List.append_nil _)
  rw [after]
  exact ⟨(congrArg Prod.snd step).trans failed.symm, root, kept⟩

theorem working_send {record : Record} (works : pipeline.Works env.toPrimitives base sent state) :
    Working env backend owner (fun result after =>
      result.2.Works env.toPrimitives base (sent ++ [record]) after ∧ Preserves state after ∧
      (∀ building, (BuilderState.start.pushAll env.toPrimitives sent).collect.2 = .ok building →
        ¬ Conflict (objectPuts (emitted env.toPrimitives sent)) base → result.1 = .ok ()))
      (pipeline.send env.toPrimitives record) state := by
  apply (working_upload works).bind
  rintro uploaded middle ⟨works', preserves⟩
  cases running : uploaded.builder with
  | ok building => exact ⟨_, rfl, works'.send running, preserves, fun _ _ _ => rfl⟩
  | error error =>
      apply follows_choose
      intro n clock _
      refine ⟨_, rfl, (works'.tick clock).ignore running, preserves, ?_⟩
      intro building granted free
      exfalso
      have alive : uploaded.stopped = none := by
        by_contra stopped
        exact free (works'.halted stopped)
      cases granted.symm.trans ((works'.building alive).1.trans running)

/-! The end of the record stream. -/

/-- The builder has ended, and what it emitted is queued or stored. -/
structure Pipeline.Ended (env : Primitives) (base : ArchiveSystem) (sent : List Record)
    (built : Result ObjectRef) (pipeline : Pipeline) (state : ArchiveSystem) : Prop where
  grown : Grown (objectPuts (RunBuilder.build env sent).collect.1) base state
  queue : ∀ object ∈ pipeline.pending, object ∈ (RunBuilder.build env sent).collect.1
  halted : pipeline.stopped ≠ none → Conflict (objectPuts (RunBuilder.build env sent).collect.1) base
  building : pipeline.stopped = none →
    (RunBuilder.build env sent).collect.2 = built ∧
    pipeline.rootBytes = smallBytes [] (RunBuilder.build env sent).collect.1 ∧
    ∀ object ∈ (RunBuilder.build env sent).collect.1, object ∈ pipeline.pending ∨ Held state object

theorem build_collect (env : Primitives) (sent : List Record) :
    (RunBuilder.build env sent).collect =
      (emitted env sent ++ (Prog.resume (fun building => BuilderState.finish env building)
        (BuilderState.start.pushAll env sent).collect.2).collect.1,
      (Prog.resume (fun building => BuilderState.finish env building)
        (BuilderState.start.pushAll env sent).collect.2).collect.2) :=
  Prog.collect_bind _ _

theorem emitted_build (env : Primitives) (sent : List Record) :
    ∀ object ∈ emitted env sent, object ∈ (RunBuilder.build env sent).collect.1 := by
  intro object member
  rw [build_collect]
  exact List.mem_append_left _ member

theorem Pipeline.Works.finish (works : pipeline.Works env.toPrimitives base sent state) :
    (pipeline.finish env.toPrimitives).2.Ended env.toPrimitives base sent
      (pipeline.finish env.toPrimitives).1 state := by
  have sub := emitted_build env.toPrimitives sent
  have grown := works.grown.mono (objectPuts_subset sub)
  have queue := fun object member => sub object (works.queue object member)
  unfold Pipeline.finish
  cases running : pipeline.builder with
  | error error =>
      refine ⟨grown, queue, fun halted => (works.halted halted).mono (objectPuts_subset sub), ?_⟩
      intro alive
      obtain ⟨builder, root, kept⟩ := works.building alive
      have whole := build_collect env.toPrimitives sent
      rw [builder, running] at whole
      rw [whole]
      simpa [Prog.resume] using And.intro root kept
  | ok building =>
      cases stopped : pipeline.stopped with
      | some error =>
          obtain ⟨result, bytes, same⟩ := deliver_stopped (building.finish env.toPrimitives) stopped
          simp only [same]
          refine ⟨grown, queue, fun _ => (works.halted (by simp [stopped])).mono (objectPuts_subset sub), ?_⟩
          intro impossible
          cases stopped.symm.trans impossible
      | none =>
          obtain ⟨builder, root, kept⟩ := works.building stopped
          have whole := build_collect env.toPrimitives sent
          rw [builder, running] at whole
          simp only [deliver_running (building.finish env.toPrimitives) stopped]
          refine ⟨grown, ?_, fun halted => absurd stopped halted, fun _ => ?_⟩
          · intro object member
            rw [whole]
            rcases List.mem_append.mp member with old | new
            · exact List.mem_append_left _ (works.queue object old)
            · exact List.mem_append_right _ new
          · rw [whole]
            refine ⟨rfl, by rw [smallBytes_append, root]; rfl, ?_⟩
            intro object member
            rcases List.mem_append.mp member with old | new
            · rcases kept object old with queued | known
              · exact .inl (List.mem_append_left _ queued)
              · exact .inr known
            · exact .inl (List.mem_append_right _ new)

/-- Once the queue is empty, either all is stored or something else was in its place. -/
theorem working_uploadRest {built : Result ObjectRef}
    (ended : pipeline.Ended env.toPrimitives base sent built state) :
    Working env backend owner (fun uploaded after =>
      uploaded.pending = [] ∧ uploaded.Ended env.toPrimitives base sent built after)
      pipeline.uploadRest state := by
  have puts := @follows_putAll env backend owner _ base _ _ (objectPuts pipeline.pending)
    (Nat.le_of_eq (List.length_map _)) (objectPuts_subset ended.queue) ended.grown
  apply Prog.Follows.bind
  apply Prog.Follows.attempt
  apply puts.weaken
  rintro outcome after ⟨moved, ⟨rfl, stored⟩ | ⟨⟨error, rfl⟩, conflict⟩⟩
  · refine ⟨_, rfl, rfl, ended.grown.trans moved, nofun, ended.halted, ?_⟩
    intro running
    obtain ⟨same, root, kept⟩ := ended.building running
    refine ⟨same, root, fun object member => .inr ?_⟩
    rcases kept object member with queued | known
    · exact stored _ (List.mem_map_of_mem queued)
    · exact moved.kept _ _ known
  · exact ⟨_, rfl, rfl, ended.grown.trans moved, nofun, fun _ => conflict, nofun⟩

end

end Fossil

import Fossil.AtRest
import Fossil.Reader

/-! What the reads of a head depend on.

A reader asks for the head, the shards of its runs and the objects below their
roots. Two stores at rest that agree on those keys answer every read alike. -/

namespace Fossil

section

variable {Owner : Type}

/-- The bytes a fetch of a reference gives in a state. -/
def System.view (env : Primitives) (backend : Backend) (owner : Owner) (state : System Owner)
    (reference : ObjectRef) : Result Bytes :=
  ((fetch env reference).run (state.replies env backend owner)).2

/-- Everything a head stands on: the roots of its runs, the objects below them and the
shards of each run. -/
inductive Head.Reaches (env : Primitives) (view : ObjectRef → Result Bytes) (head : Head) : Key → Prop where
  | root {run : Run} (member : run ∈ head.runs) : Head.Reaches env view head (.object run.root.digest)
  | object {run : Run} {bytes : Bytes} {reader : RunReader} {reference : ObjectRef} (member : run ∈ head.runs)
      (input : hexDecode run.rootBytes = .ok bytes) (opened : RunReader.decode env run.root bytes = .ok reader)
      (links : reader.Links env view reference) : Head.Reaches env view head (.object reference.digest)
  | shard {run : Run} {kind : ShardKind} {index : UInt32} (member : run ∈ head.runs)
      (small : index.toNat < run.shards.toNat) :
      Head.Reaches env view head (.summary run.root.digest run.shards kind index)

/-- Reads of these keys and the memo of a reader. -/
def StoreOp.Inside (keys : Key → Prop) : StoreOp → Prop
  | .getBounded key _ => keys key
  | .readMutableBounded key _ => keys key
  | .shardsNew => True
  | .shardsGet .. => True
  | .shardsInsert .. => True
  | _ => False

/-- The states agree on these keys and on the memos. -/
structure Alike (keys : Key → Prop) (left right : System Owner) : Prop where
  lookup : ∀ key, keys key → left.lookup key = right.lookup key
  memo : left.memo = right.memo
  nextCache : left.nextCache = right.nextCache

theorem Alike.symm {keys : Key → Prop} {left right : System Owner} (alike : Alike keys left right) :
    Alike keys right left :=
  ⟨fun key inside => (alike.lookup key inside).symm, alike.memo.symm, alike.nextCache.symm⟩

variable {env : Primitives} {backend : Backend} {owner : Owner} {keys : Key → Prop}

/-- Alike states answer alike. -/
theorem Alike.simulates {op : StoreOp} {left right after : System Owner} {reply : op.Resp}
    (inside : op.Inside keys) (alike : Alike keys left right)
    (stepped : (calm env backend).step owner op left reply after) :
    ∃ after', (calm env backend).step owner op right reply after' ∧ Alike keys after after' := by
  rcases stepped with ⟨clock, later, outcome⟩
  have performed : ((right.tick right.clock).perform env backend owner op).1 =
      ((left.tick clock).perform env backend owner op).1 ∧
      Alike keys ((left.tick clock).perform env backend owner op).2
        ((right.tick right.clock).perform env backend owner op).2 := by
    cases op with
    | getBounded key maximum =>
        have same : (right.tick right.clock).lookup key = (left.tick clock).lookup key :=
          (alike.lookup key inside).symm
        refine ⟨?_, ⟨alike.lookup, alike.memo, alike.nextCache⟩⟩
        show System.getBounded _ _ _ _ = System.getBounded _ _ _ _
        unfold System.getBounded
        rw [same]
    | readMutableBounded key maximum =>
        have same : (right.tick right.clock).lookup key = (left.tick clock).lookup key :=
          (alike.lookup key inside).symm
        refine ⟨?_, ⟨alike.lookup, alike.memo, alike.nextCache⟩⟩
        show System.readMutableBounded _ _ _ _ _ = System.readMutableBounded _ _ _ _ _
        unfold System.readMutableBounded
        rw [same]
    | shardsNew =>
        exact ⟨alike.nextCache.symm, ⟨alike.lookup, alike.memo, congrArg (· + 1) alike.nextCache⟩⟩
    | shardsGet cache path =>
        exact ⟨congrFun (congrFun alike.memo.symm cache) path, ⟨alike.lookup, alike.memo, alike.nextCache⟩⟩
    | shardsInsert cache path shard =>
        refine ⟨rfl, ⟨alike.lookup, ?_, alike.nextCache⟩⟩
        show Function.update left.memo cache (Function.update (left.memo cache) path (some shard)) =
          Function.update right.memo cache (Function.update (right.memo cache) path (some shard))
        rw [alike.memo]
    | _ => exact inside.elim
  cases outcome with
  | done => exact ⟨_, ⟨right.clock, Nat.le_refl _, performed.1 ▸ .done op⟩, performed.2⟩
  | evicted cache path =>
      exact ⟨_, ⟨right.clock, Nat.le_refl _, .evicted cache path⟩, ⟨alike.lookup, alike.memo, alike.nextCache⟩⟩
  | reordered => exact inside.elim
  | chosen => exact inside.elim
  | lost _ _ allowed => exact allowed.elim
  | unacknowledged _ _ allowed => exact allowed.elim

/-- Operations inside leave what is stored alone. -/
theorem calm_entries {op : StoreOp} {state after : System Owner} {reply : op.Resp} (inside : op.Inside keys)
    (stepped : (calm env backend).step owner op state reply after) : after.entries = state.entries := by
  rcases stepped with ⟨clock, _, outcome⟩
  cases outcome with
  | done =>
      cases op with
      | getBounded | readMutableBounded | shardsNew | shardsGet | shardsInsert => rfl
      | _ => exact inside.elim
  | evicted => rfl
  | reordered => rfl
  | chosen => rfl
  | lost _ _ allowed => exact allowed.elim
  | unacknowledged _ _ allowed => exact allowed.elim

theorem replies_entries {op : StoreOp} (reads : op.Reads) {state base : System Owner}
    (same : state.entries = base.entries) :
    state.replies env backend owner op = base.replies env backend owner op := by
  have lookup : ∀ key, state.lookup key = base.lookup key := by
    intro key
    rw [System.lookup, same]
    rfl
  cases op with
  | getBounded key maximum =>
      show System.getBounded _ _ _ _ = System.getBounded _ _ _ _
      unfold System.getBounded
      rw [lookup]
  | readMutableBounded key maximum =>
      show System.readMutableBounded _ _ _ _ _ = System.readMutableBounded _ _ _ _ _
      unfold System.readMutableBounded
      rw [lookup]
  | _ => exact reads.elim

/-- A program that only reads inside ends as its run does. -/
theorem confined_reads {α : Type} {prog : StoreProg α} {base state : System Owner}
    (asks : prog.Asks (fun op => op.Reads ∧ op.Inside keys)) (same : state.entries = base.entries) :
    prog.Confined (fun op _ => StoreOp.Inside keys op) ((calm env backend).step owner)
      (fun outcome after => outcome = (prog.run (base.replies env backend owner)).2 ∧
        after.entries = base.entries) state := by
  induction prog generalizing state with
  | ret value => exact ⟨rfl, same⟩
  | fail error => exact ⟨rfl, same⟩
  | call op next ih =>
      refine ⟨asks.1.2, ?_⟩
      intro reply after stepped
      have kept := (calm_entries asks.1.2 stepped).trans same
      have answered := (calm_reads asks.1.1 stepped).1
      rw [replies_entries asks.1.1 same] at answered
      subst answered
      exact ih _ (asks.2 _) kept

/-- One operation inside, whatever the reply. -/
theorem confined_perform_bind {α : Type} {op : StoreOp} {next : op.Resp → StoreProg α}
    {post : Except Error α → System Owner → Prop} {state : System Owner} (base : System Owner)
    (inside : op.Inside keys) (same : state.entries = base.entries)
    (rest : ∀ reply after, after.entries = base.entries →
      (next reply).Confined (fun op _ => StoreOp.Inside keys op)
      ((calm env backend).step owner) post after) :
    ((Prog.perform op).bind next).Confined (fun op _ => StoreOp.Inside keys op)
      ((calm env backend).step owner) post state :=
  ⟨inside, fun reply after stepped => rest reply after ((calm_entries inside stepped).trans same)⟩

end

/-! Readers. -/

section

variable {Owner : Type} {env : Externals} {backend : Backend} {owner : Owner} {keys : Key → Prop}
  {base state : System Owner}

/-- Everything the reader may ask for is among the keys. -/
def Reader.Within (env : Externals) (backend : Backend) (owner : Owner) (keys : Key → Prop)
    (base : System Owner) (reader : Reader) : Prop :=
  ∀ pair ∈ reader.runs, pair.1.shards ≠ 0 ∧ (∀ key ∈ shardKeysOf pair.1, keys key) ∧
    ∀ reference, pair.2.Links env.toPrimitives (base.view env.toPrimitives backend owner) reference →
      keys (.object reference.digest)

/-- Confined to the keys, with what is stored left alone. -/
def Stays {α : Type} (env : Externals) (backend : Backend) (owner : Owner) (keys : Key → Prop)
    (base state : System Owner) (prog : StoreProg α) : Prop :=
  prog.Confined (fun op _ => StoreOp.Inside keys op) ((calm env.toPrimitives backend).step owner)
    (fun _ after => after.entries = base.entries) state

theorem Stays.bind {α β : Type} {prog : StoreProg α} {next : α → StoreProg β}
    (first : Stays env backend owner keys base state prog)
    (rest : ∀ value after, after.entries = base.entries →
      Stays env backend owner keys base after (next value)) :
    Stays env backend owner keys base state (prog.bind next) := by
  apply Prog.Confined.bind
  apply first.weaken
  intro outcome after kept
  cases outcome with
  | error error => exact kept
  | ok value => exact rest value after kept

theorem stays_ofExcept_bind {α β : Type} {result : Result α} {next : α → StoreProg β}
    (same : state.entries = base.entries)
    (rest : ∀ value, result = .ok value → Stays env backend owner keys base state (next value)) :
    Stays env backend owner keys base state ((Prog.ofExcept result).bind next) :=
  Prog.confined_ofExcept_bind (fun _ => same) rest

theorem stays_getBounded {key : Key} {maximum : Nat} (inside : keys key) (same : state.entries = base.entries) :
    Stays env backend owner keys base state (getBounded key maximum) := by
  have asks : (getBounded key maximum).Asks (fun op => op.Reads ∧ op.Inside keys) :=
    ⟨⟨trivial, inside⟩, fun _ => Prog.asks_ofExcept _⟩
  exact (confined_reads asks same).weaken (fun _ _ ended => ended.2)

theorem shard_stays {reader : Reader} {budget : Budget} {run : Run} {kind : ShardKind} {index : UInt32}
    (inside : keys (.summary run.root.digest run.shards kind index)) (same : state.entries = base.entries) :
    Stays env backend owner keys base state (reader.shard env budget run kind index) := by
  apply confined_perform_bind base (by trivial) same
  intro known after kept
  cases known with
  | some shard => exact kept
  | none =>
      apply stays_ofExcept_bind kept
      intro charged _
      apply (stays_getBounded inside kept).bind
      intro bytes later kept
      apply stays_ofExcept_bind kept
      intro shard _
      exact confined_perform_bind base (by trivial) kept (fun _ _ kept => kept)

theorem mayContain_stays {reader : Reader} {budget : Budget} {run : Run} {key : Bytes}
    (positive : run.shards ≠ 0) (shards : ∀ path ∈ shardKeysOf run, keys path)
    (same : state.entries = base.entries) :
    Stays env backend owner keys base state (reader.mayContain env budget run key) := by
  apply (shard_stays (shards _ (mem_shardKeysOf.mpr ⟨_, _, shardIndex_lt _ _ positive, rfl⟩)) same).bind
  intro address later kept
  dsimp only
  split
  · exact kept
  · split
    · exact kept
    · apply (shard_stays (shards _ (mem_shardKeysOf.mpr ⟨_, _, spillIndex_lt _ positive, rfl⟩)) kept).bind
      intro spill after kept
      exact kept

theorem fetch_asks {reference : ObjectRef} (inside : keys (.object reference.digest)) :
    (fetch env.toPrimitives reference).Asks (fun op => op.Reads ∧ op.Inside keys) := by
  unfold fetch
  dsimp only
  split
  · trivial
  · have asks : (getBounded (.object reference.digest) reference.length.toNat).Asks
        (fun op => op.Reads ∧ op.Inside keys) := ⟨⟨trivial, inside⟩, fun _ => Prog.asks_ofExcept _⟩
    apply asks.bind
    intro bytes
    split <;> trivial

theorem chargedFetch_confined {budget : Budget} {reference : ObjectRef} (inside : keys (.object reference.digest))
    (same : state.entries = base.entries) :
    (chargedFetch env budget reference).Confined (fun op _ => StoreOp.Inside keys op)
      ((calm env.toPrimitives backend).step owner)
      (fun result after => ∃ reply budget', result = .ok (reply, budget') ∧
        Views (base.view env.toPrimitives backend owner) reference () reply () ∧
        after.entries = base.entries) state := by
  unfold chargedFetch
  split
  · next error _ => exact ⟨.error error, _, rfl, .inr ⟨error, rfl⟩, same⟩
  · next charged _ =>
      apply Prog.Confined.bind
      apply Prog.Confined.attempt
      apply (confined_reads (fetch_asks inside) same).weaken
      intro outcome after ended
      exact ⟨outcome, charged, rfl, .inl ended.1, ended.2⟩

theorem lookupRuns_stays {reader : Reader} {key : Bytes} {block : UInt64} {pairs : List (Run × RunReader)}
    {budget : Budget} (within : ∀ pair ∈ pairs, pair.1.shards ≠ 0 ∧ (∀ path ∈ shardKeysOf pair.1, keys path) ∧
      ∀ reference, pair.2.Links env.toPrimitives (base.view env.toPrimitives backend owner) reference →
        keys (.object reference.digest)) (same : state.entries = base.entries) :
    Stays env backend owner keys base state (reader.lookupRuns env key block pairs budget) := by
  induction pairs generalizing budget state with
  | nil => exact same
  | cons pair pairs ih =>
      rcases within pair List.mem_cons_self with ⟨positive, shards, links⟩
      have later := fun other member => within other (List.mem_cons_of_mem pair member)
      rcases pair with ⟨run, index⟩
      unfold Reader.lookupRuns
      split
      · exact ih later same
      · apply (mayContain_stays positive shards same).bind
        intro maybe after kept
        dsimp only
        split
        · exact ih later kept
        · have asked : Stays env backend owner keys base after (Prog.handle (chargedFetch env) maybe.2
              (index.lookup env.toPrimitives key (min block run.last))) := by
            refine (Prog.Confined.handle
              (fun _ (_ : Budget) (state : System Owner) => state.entries = base.entries)
              (@lookup_confined env.toPrimitives (base.view env.toPrimitives backend owner) index key
                (min block run.last)) ?_ kept).weaken ?_
            · intro reference _ own state linked same
              apply (chargedFetch_confined (links reference linked) same).weaken
              exact fun _ _ ⟨reply, own', done, viewed, kept⟩ => ⟨reply, own', (), done, viewed, kept⟩
            · exact fun _ _ ⟨_, _, _, _, _, kept⟩ => kept
          apply asked.bind
          intro found after kept
          apply stays_ofExcept_bind kept
          intro value _
          cases value with
          | some value => exact kept
          | none => exact ih later kept

variable {reader : Reader} (within : reader.Within env backend owner keys base)
  (same : state.entries = base.entries)

include within same

theorem lookup_stays {budget : Budget} {key : Bytes} {block : UInt64} :
    Stays env backend owner keys base state (reader.lookup env budget key block) := by
  unfold Reader.lookup
  split
  · exact same
  · exact lookupRuns_stays (fun pair member => within pair (List.mem_reverse.mp member)) same

theorem accountIn_stays {budget : Budget} {address : Address} {block : UInt64} :
    Stays env backend owner keys base state (reader.accountIn env budget address block) := by
  apply (lookup_stays within same).bind
  intro found after kept
  rcases found with ⟨value, budget'⟩
  cases value with
  | none => exact kept
  | some value =>
      apply stays_ofExcept_bind kept
      intro _ _
      exact kept

theorem account_stays {address : Address} {block : UInt64} :
    Stays env backend owner keys base state (reader.account env address block) := by
  apply (accountIn_stays within same).bind
  intro _ after kept
  exact kept

theorem storage_stays {address : Address} {slot : Hash32} {block : UInt64} :
    Stays env backend owner keys base state (reader.storage env address slot block) := by
  apply (accountIn_stays within same).bind
  intro found after kept
  rcases found with ⟨account, budget⟩
  cases account with
  | none => exact kept
  | some account =>
      dsimp only
      split
      · exact kept
      · apply (lookup_stays within kept).bind
        intro found later kept
        rcases found with ⟨value, _⟩
        cases value with
        | none => exact kept
        | some value => exact Prog.confined_ofExcept kept

theorem code_stays {address : Address} {block : UInt64} :
    Stays env backend owner keys base state (reader.code env address block) := by
  apply (accountIn_stays within same).bind
  intro found after kept
  rcases found with ⟨account, budget⟩
  cases account with
  | none => exact kept
  | some account =>
      dsimp only
      split
      · exact kept
      · split
        · exact kept
        · apply (lookup_stays within kept).bind
          intro found later kept
          rcases found with ⟨value, _⟩
          cases value with
          | none => exact kept
          | some bytes =>
              dsimp only
              split <;> exact kept

end

/-! Opening. -/

section

variable {Owner : Type} {env : Externals} {backend : Backend} {owner : Owner} {keys : Key → Prop}
  {base state : System Owner} {chainId : UInt64}

theorem readHead_run {replies : (op : StoreOp) → op.Resp} {bytes : VersionedBytes} {head : Head} :
    ((readHead env chainId).run replies).2 = .ok (some (bytes, head)) ↔
      replies (.readMutableBounded (.head chainId) maxHead) = .ok (some bytes) ∧
      Head.decode env bytes.bytes = .ok head ∧ head.chainId = chainId := by
  unfold readHead
  rw [Prog.bind_eq, Prog.run_bind_eq_ok]
  constructor
  · rintro ⟨found, read, rest⟩
    rw [run_readMutableBounded] at read
    cases found with
    | none => cases rest
    | some found =>
        rcases Prog.run_bind_eq_ok.mp rest with ⟨decoded, valid, final⟩
        rw [Prog.liftM_eq, Prog.run_ofExcept] at valid
        rcases Prog.run_guard_eq_ok.mp final with ⟨chain, done⟩
        cases done
        exact ⟨read, valid, not_not.mp chain⟩
  · rintro ⟨read, valid, chain⟩
    refine ⟨some bytes, (run_readMutableBounded _ _ _).trans read, ?_⟩
    apply Prog.run_bind_eq_ok.mpr
    refine ⟨head, by rw [Prog.liftM_eq, Prog.run_ofExcept]; exact valid, ?_⟩
    exact Prog.run_guard_eq_ok.mpr ⟨not_not.mpr chain, rfl⟩

theorem decodeManifest_mem {runs : List Run} {pairs : List (Run × RunReader)}
    (decoded : decodeManifest env runs = .ok pairs) : ∀ pair ∈ pairs, pair.1 ∈ runs ∧
      ∃ bytes, hexDecode pair.1.rootBytes = .ok bytes ∧
        RunReader.decode env.toPrimitives pair.1.root bytes = .ok pair.2 := by
  induction runs generalizing pairs with
  | nil =>
      cases decoded
      exact fun pair member => nomatch member
  | cons run runs ih =>
      rcases bind_eq_ok.mp decoded with ⟨⟨root, bytes⟩, input, rest⟩
      rcases bind_eq_ok.mp input with ⟨bytes', hex, same⟩
      cases same
      rcases bind_eq_ok.mp rest with ⟨reader, opened, rest⟩
      rcases bind_eq_ok.mp rest with ⟨others, later, done⟩
      cases done
      intro pair member
      rcases List.mem_cons.mp member with rfl | inside
      · exact ⟨List.mem_cons_self, bytes, hex, opened⟩
      · rcases ih later pair inside with ⟨listed, found⟩
        exact ⟨List.mem_cons_of_mem _ listed, found⟩

/-- Opening reads the head, and the reader stays with what the head reaches. -/
theorem open_within (headInside : keys (.head chainId))
    (reaches : ∀ bytes head, ((readHead env chainId).run (base.replies env.toPrimitives backend owner)).2 =
      .ok (some (bytes, head)) →
      ∀ key, head.Reaches env.toPrimitives (base.view env.toPrimitives backend owner) key → keys key)
    (same : state.entries = base.entries) :
    (Reader.open env chainId).Confined (fun op _ => StoreOp.Inside keys op)
      ((calm env.toPrimitives backend).step owner)
      (fun outcome after => after.entries = base.entries ∧
        ∀ reader, outcome = .ok reader → reader.Within env backend owner keys base) state := by
  have asks : (readHead env chainId).Asks (fun op => op.Reads ∧ op.Inside keys) := by
    have read : (readMutableBounded (.head chainId) maxHead).Asks (fun op => op.Reads ∧ op.Inside keys) :=
      ⟨⟨trivial, headInside⟩, fun _ => Prog.asks_ofExcept _⟩
    apply read.bind
    intro found
    cases found with
    | none => trivial
    | some bytes =>
        apply Prog.asks_ofExcept_bind
        intro head _
        split <;> trivial
  apply Prog.Confined.bind
  apply (confined_reads asks same).weaken
  rintro outcome after ⟨ended, kept⟩
  cases outcome with
  | error error => exact ⟨kept, nofun⟩
  | ok found =>
      cases found with
      | none => exact ⟨kept, nofun⟩
      | some found =>
          rcases found with ⟨bytes, head⟩
          have decoded := (readHead_run.mp ended.symm).2.1
          apply Prog.confined_ofExcept_bind (fun _ => ⟨kept, nofun⟩)
          intro pairs manifest
          apply confined_perform_bind base (by trivial) kept
          intro shards later kept
          refine ⟨kept, ?_⟩
          intro reader opened
          cases opened
          intro pair member
          rcases decodeManifest_mem manifest pair member with ⟨listed, root, hex, opened⟩
          rcases checkRuns_mem (decode_checks decoded).1 listed with ⟨_, _, _, _, positive⟩
          have inside := reaches bytes head ended.symm
          refine ⟨positive, ?_, fun reference links => inside _ (.object listed hex opened links)⟩
          intro key shard
          rcases mem_shardKeysOf.mp shard with ⟨kind, index, small, rfl⟩
          exact inside _ (.shard listed small)

/-- Stores that agree on what the head reaches answer every query of a fresh reader in
the same ways. -/
theorem reads_alike {α : Type} {query : Reader → StoreProg α} {other : System Owner} {outcome : Except Error α}
    (headInside : keys (.head chainId))
    (reaches : ∀ bytes head, ((readHead env chainId).run (base.replies env.toPrimitives backend owner)).2 =
      .ok (some (bytes, head)) →
      ∀ key, head.Reaches env.toPrimitives (base.view env.toPrimitives backend owner) key → keys key)
    (stays : ∀ (reader : Reader) (state : System Owner), reader.Within env backend owner keys base →
      state.entries = base.entries → Stays env backend owner keys base state (query reader))
    (alike : Alike keys base other) :
    ((Reader.open env chainId).bind query).Ends ((calm env.toPrimitives backend).step owner) base outcome ↔
      ((Reader.open env chainId).bind query).Ends ((calm env.toPrimitives backend).step owner) other outcome := by
  have confined : ((Reader.open env chainId).bind query).Confined (fun op _ => StoreOp.Inside keys op)
      ((calm env.toPrimitives backend).step owner) (fun _ after => after.entries = base.entries) base := by
    apply Prog.Confined.bind
    apply (open_within headInside reaches rfl).weaken
    rintro outcome after ⟨kept, within⟩
    cases outcome with
    | error error => exact kept
    | ok reader => exact stays reader after (within reader rfl) kept
  constructor
  · exact confined.ends (fun op left right reply after inside same stepped => same.simulates inside stepped) alike
  · have there := confined.transfer (fun _ _ _ inside _ => inside)
      (fun op left right reply after inside same stepped => by
      rcases same.symm.simulates inside stepped with ⟨after', stepped', same'⟩
      exact ⟨after', stepped', same'.symm⟩) alike
    exact there.ends (fun op left right reply after inside same stepped => same.simulates inside stepped)
      alike.symm

end

end Fossil

import Fossil.Publishing

/-! Queries of a pinned head.

A reader answers from the runs of the head it was opened on. Every query returns
what the records of that head say, or stops because the budget of its request is
spent; other errors need a store that fails reads, or an object at the all-zero
digest, which references cannot name. -/

namespace Fossil

section

variable {env : Externals} {accepts : Package → Prop} {backend : Backend} {faulty : StoreOp → Prop} {owner : Call}
  {state base : ArchiveSystem} {gets : Nat}

/-- Tombstones carry no data. -/
def Package.Canonical (package : Package) : Prop :=
  ∀ event ∈ package.segment.accounts, event.existing = false →
    event.nonce = 0 ∧ event.balance = Fixed.zero ∧ event.codeHash = Fixed.zero

/-- What readers cannot cope with: reads that fail, and an object that references
cannot name. -/
def Impaired (faulty : StoreOp → Prop) (state : ArchiveSystem) : Prop :=
  (∃ key maximum, faulty (.getBounded key maximum)) ∨ state.content (.object Fixed.zero) ≠ none

/-- GETs of the largest size that fit in the budget of a request. -/
def freeGets : Nat := maxRequestBytes / maxShardBytes

/-- Errors a query of at most this many GETs may stop with. -/
def Excused (faulty : StoreOp → Prop) (gets : Nat) (state : ArchiveSystem) (error : Error) : Prop :=
  (budgetError <:+ error ∧ freeGets < gets) ∨ Impaired faulty state

theorem Impaired.later {later : ArchiveSystem} (impaired : Impaired faulty state) (kept : Kept state later) :
    Impaired faulty later := by
  rcases impaired with fails | stored
  · exact .inl fails
  · rcases Option.ne_none_iff_exists'.mp stored with ⟨bytes, found⟩
    exact .inr (Option.ne_none_iff_exists'.mpr ⟨bytes, kept.content rfl found⟩)

theorem Excused.later {later : ArchiveSystem} {gets : Nat} {error : Error}
    (excused : Excused faulty gets state error) (kept : Kept state later) : Excused faulty gets later error :=
  excused.imp_right (fun impaired => impaired.later kept)

/-! The budget of a request. -/

/-- No GET was charged more than the largest object. -/
def Budget.Fair (budget : Budget) : Prop := budget.bytes ≤ maxShardBytes * budget.gets

theorem Budget.fair_default : Budget.default.Fair := Nat.zero_le _

theorem Budget.Fair.spend {budget : Budget} {maximum : Nat} (fair : budget.Fair)
    (small : maximum ≤ maxShardBytes) : (budget.spend maximum).Fair := by
  unfold Budget.Fair at fair ⊢
  show budget.bytes + maximum ≤ maxShardBytes * (budget.gets + 1)
  rw [Nat.mul_add]
  omega

theorem Budget.charge_ok {budget next : Budget} {maximum : Nat} (charged : budget.charge maximum = .ok next) :
    next = budget.spend maximum := by
  unfold Budget.charge at charged
  split at charged
  · cases charged
  · exact (Except.ok.inj charged).symm

/-- A fair budget lasts for the free GETs. -/
theorem Budget.Fair.charge_error {budget : Budget} {maximum : Nat} {error : Error} (fair : budget.Fair)
    (small : maximum ≤ maxShardBytes) (spent : budget.charge maximum = .error error) :
    error = budgetError ∧ freeGets ≤ budget.gets := by
  unfold Budget.charge at spent
  split at spent
  · next exceeded =>
      refine ⟨(Except.error.inj spent).symm, ?_⟩
      have next := fair.spend small
      simp only [Budget.exhausted, decide_eq_true_eq] at exceeded
      simp only [Budget.Fair, Budget.spend, maxShardBytes] at next exceeded
      simp only [maxRequestGets, maxRequestBytes] at exceeded
      simp only [freeGets, maxRequestBytes, maxShardBytes]
      omega
  · cases spent

/-- A request under way, with some of its GETs still to come. -/
structure Charging (base : ArchiveSystem) (gets left : Nat) (budget : Budget) (state : ArchiveSystem) :
    Prop where
  kept : Kept base state
  fair : budget.Fair
  room : budget.gets + left ≤ gets

section

variable {gets left : Nat} {budget : Budget}

theorem Charging.later {after : ArchiveSystem} (charging : Charging base gets left budget state)
    (moves : Kept state after) : Charging base gets left budget after :=
  ⟨charging.kept.trans moves, charging.fair, charging.room⟩

theorem Charging.fewer {less : Nat} (charging : Charging base gets left budget state) (le : less ≤ left) :
    Charging base gets less budget state :=
  ⟨charging.kept, charging.fair, by have := charging.room; omega⟩

theorem Charging.spend {maximum : Nat} (charging : Charging base gets (left + 1) budget state)
    (small : maximum ≤ maxShardBytes) : Charging base gets left (budget.spend maximum) state := by
  refine ⟨charging.kept, charging.fair.spend small, ?_⟩
  show budget.gets + 1 + left ≤ gets
  have := charging.room
  omega

theorem Charging.spent {maximum : Nat} {error : Error} (charging : Charging base gets (left + 1) budget state)
    (small : maximum ≤ maxShardBytes) (stopped : budget.charge maximum = .error error) :
    Excused faulty gets base error := by
  obtain ⟨rfl, low⟩ := charging.fair.charge_error small stopped
  have := charging.room
  exact .inl ⟨List.suffix_rfl, by omega⟩

end

/-! Single reads. -/

theorem getBounded_gives {key : Key} {bytes : Bytes} {maximum : Nat} (kept : Kept base state)
    (held : Holds base key bytes) (immutable : key.immutable) (small : bytes.length ≤ maximum) :
    (getBounded key maximum).Safe (archiveWorld env backend faulty)
      (archiveProtocol env accepts backend) owner (Prog.Gives (Excused faulty gets base) (fun found _ => found = bytes))
      state := by
  intro later moves inv reply after stepped
  have idle := step_idle inv stepped (fun _ => rfl) trivial
  refine ⟨idle.1, idle.2, Prog.safe_ofExcept ?_⟩
  intro final _ _
  have present : later.content key = some bytes := Kept.content moves immutable (kept.content immutable held)
  rcases (stepped trivial).1 with ⟨clock, _, outcome⟩
  cases outcome with
  | done =>
      left
      rcases Option.map_eq_some_iff.mp present with ⟨entry, found, rfl⟩
      refine ⟨entry.bytes, ?_, rfl⟩
      show (later.tick clock).getBounded backend key maximum = .ok entry.bytes
      unfold System.getBounded
      rw [show (later.tick clock).lookup key = some entry from found]
      exact if_neg (Nat.not_lt_of_le small)
  | lost _ _ allowed failed =>
      rcases failed with ⟨error, rfl⟩
      exact .inr ⟨error, rfl, .inr (.inl ⟨key, maximum, allowed⟩)⟩
  | unacknowledged _ _ allowed failed =>
      rcases failed with ⟨error, rfl⟩
      exact .inr ⟨error, rfl, .inr (.inl ⟨key, maximum, allowed⟩)⟩

/-- Objects that can be fetched: stored under their own name, within the page limit. -/
structure Fetchable (env : Externals) (base : ArchiveSystem) (object : EncodedObject) : Prop where
  held : Holds base object.objectKey object.bytes
  within : object.reference.Within pageLimit
  addressed : object.Addressed env.toPrimitives

theorem serving_fetchable (lossless : env.toPrimitives.Lossless) :
    Serving env.toPrimitives (Fetchable env base) (Excused faulty gets base) := by
  refine ⟨lossless, ?_, ?_⟩
  · by_cases impaired : Impaired faulty base
    · exact .inr (fun _ => .inr impaired)
    · left
      intro object fetchable zero
      apply impaired
      right
      have held := fetchable.held
      rw [EncodedObject.objectKey, zero] at held
      rw [held]
      exact Option.some_ne_none _
  · intro message error excused
    rcases excused with spent | impaired
    · exact .inl ⟨spent.1.trans (List.suffix_cons message error), spent.2⟩
    · exact .inr impaired

theorem fetch_gives {object : EncodedObject} (kept : Kept base state)
    (fetchable : Fetchable env base object) :
    (fetch env.toPrimitives object.reference).Safe (archiveWorld env backend faulty)
      (archiveProtocol env accepts backend) owner
      (Prog.Gives (Excused faulty gets base) (fun found _ => found = object.bytes)) state := by
  have within := fetchable.within
  rcases makeObject_eq_ok.mp fetchable.addressed with ⟨small, same⟩
  have length : object.reference.length.toNat = object.bytes.length := by
    conv => lhs; rw [same]
    exact toNat_ofNat_of_lt small
  unfold fetch
  dsimp only
  split
  · next refused =>
      apply Prog.safe_fail_gives
      rcases refused with empty | large | zero
      · exact absurd (UInt32.toNat_inj.mp empty) within.length_ne_zero
      · exact absurd within.bounded (Nat.not_le_of_gt large)
      · right
        right
        have held := fetchable.held
        rw [EncodedObject.objectKey, zero] at held
        rw [held]
        exact Option.some_ne_none _
  · apply (getBounded_gives kept fetchable.held rfl (Nat.le_of_eq length.symm)).gives_bind
    intro bytes later _ _ found
    subst found
    have valid : ¬ (object.bytes.length ≠ object.reference.length.toNat ∨
        env.sha256 object.bytes ≠ object.reference.digest) := by
      rw [length, fetchable.addressed.digest]
      simp
    rw [if_neg valid]
    exact Prog.safe_ret_gives (fun _ _ _ => rfl)

/-- A fetch on a budget answers as the store does, or the budget is spent. -/
theorem chargedFetch_safe {budget : Budget} {reference : ObjectRef} {left : Nat} (short : reference.Short)
    (charging : Charging base gets (left + 1) budget state) :
    (chargedFetch env budget reference).Safe (archiveWorld env backend faulty)
      (archiveProtocol env accepts backend) owner (Prog.Delivers (fun result later =>
        Serves (Fetchable env base) (Excused faulty gets base) reference result.1 ∧
          Charging base gets left result.2 later)) state := by
  have kept := charging.kept
  have charged := charging.spend short
  unfold chargedFetch
  split
  · next error spent =>
      apply Prog.safe_ret_delivers
      intro later moves _
      refine ⟨?_, charged.later moves⟩
      intro object _ _
      exact .inr ⟨error, rfl, charging.spent short spent⟩
  · next rest paid =>
      rw [Budget.charge_ok paid]
      by_cases known : ∃ object, Fetchable env base object ∧ object.reference = reference
      · rcases known with ⟨object, fetchable, rfl⟩
        apply (fetch_gives kept fetchable).attempt_outcome.delivers_bind
        intro reply middle moves _ given
        apply Prog.safe_ret_delivers
        intro later moves' _
        refine ⟨?_, charged.later (Kept.trans moves moves')⟩
        intro other fetchable' same
        have bytes : other.bytes = object.bytes := by
          apply Option.some.inj
          rw [← fetchable.held, ← fetchable'.held, EncodedObject.objectKey, EncodedObject.objectKey, same]
        rw [bytes]
        rcases given with ⟨found, done, rfl⟩ | ⟨error, done, excused⟩
        · exact .inl done
        · exact .inr ⟨error, done, excused⟩
      · apply (hosting accepts backend faulty owner).fetch_safe.attempt_delivers.delivers_bind
        intro reply middle moves _ _
        apply Prog.safe_ret_delivers
        intro later moves' _
        refine ⟨?_, charged.later (Kept.trans moves moves')⟩
        intro object fetchable same
        exact absurd ⟨object, fetchable, same⟩ known

/-! The summary of a run. -/

theorem mem_distinctKeys {records : List Record} {record : Record} (member : record ∈ records) :
    record.key ∈ distinctKeys records := by
  induction records generalizing record with
  | nil => cases member
  | cons first rest ih =>
      cases rest with
      | nil =>
          rw [List.mem_singleton.mp member]
          exact List.mem_singleton.mpr rfl
      | cons next rest =>
          unfold distinctKeys
          split
          · next same =>
              rcases List.mem_cons.mp member with rfl | later
              · rw [same]
                exact ih List.mem_cons_self
              · exact ih later
          · rcases List.mem_cons.mp member with rfl | later
            · exact List.mem_cons_self
            · exact List.mem_cons_of_mem _ (ih later)

/-- The filters of a piece are stored, and report every key it holds. -/
theorem Piece.filters (piece : Piece env) : ∃ filter : ShardKind → UInt32 → Bytes,
    (∀ kind index, index.toNat < piece.run.shards.toNat → ∃ bytes,
      (Key.summary piece.run.root.digest piece.run.shards kind index, bytes) ∈ piece.stored ∧
      bytes.length ≤ maxShardBytes ∧
      Shard.decode env.toPrimitives piece.run.root.digest kind index piece.run.shards bytes =
        .ok ⟨filter kind index⟩) ∧
    piece.run.shards ≠ 0 ∧
    ∀ record ∈ piece.records,
      let probe := Probe.new env.toPrimitives record.key piece.run.shards
      Shard.contains env.toPrimitives ⟨filter .address probe.addressIndex⟩ record.key = true ∨
        (Shard.contains env.toPrimitives ⟨filter .address probe.addressIndex⟩ probe.marker = true ∧
          Shard.contains env.toPrimitives ⟨filter .spill probe.spillIndex⟩ record.key = true) := by
  rcases buildRun_eq_ok.mp piece.build with ⟨empty, objects, root, made, _, built, stored⟩
  have facts := @SummaryBuilder.new_eq_ok env.toPrimitives _ _ made
  have shape := piece.shape
  have digest : piece.run.root.digest = root.digest := by
    rw [shape, built]
    rfl
  have shards : piece.run.shards = (empty.addAll env.toPrimitives (distinctKeys piece.records)).shards := by
    rw [shape, built]
    rfl
  generalize summarised : empty.addAll env.toPrimitives (distinctKeys piece.records) = summary at *
  have valid : summary.Valid env.toPrimitives (filterBytes piece.expectedKeys empty.shards) := by
    rw [← summarised]
    exact facts.2.2.2.addAll _
  refine ⟨fun kind index => ((summary.flush env.toPrimitives).rows kind).getD index.toNat [], ?_, ?_, ?_⟩
  · intro kind index inside
    rw [shards] at inside
    rcases SummaryBuilder.finish_shard valid facts.2.2.1 root.digest kind inside with ⟨bytes, member, length, decoded⟩
    refine ⟨bytes, ?_, ?_, ?_⟩
    · rw [stored, digest, shards]
      exact List.mem_append_right _ member
    · rw [length]
      exact facts.2.2.1
    · rw [digest, shards]
      exact decoded
  · rw [shards]
    exact valid.nonzero
  · intro record member
    have held : summary.Holds env.toPrimitives record.key := by
      rw [← summarised]
      exact SummaryBuilder.Holds.addAll facts.2.2.2 _ (.inr (mem_distinctKeys member))
    have placed := held.flush valid
    rw [shards]
    unfold SummaryBuilder.Placed at placed
    exact placed

/-- A shard that is stored is what a reader gets, from its memo or from the store. -/
theorem shard_gives {reader : Reader} {budget : Budget} {run : Run} {kind : ShardKind} {index : UInt32}
    {bytes : Bytes} {shard : Shard} {left : Nat} (charging : Charging base gets (left + 1) budget state)
    (held : Holds base (.summary run.root.digest run.shards kind index) bytes)
    (small : bytes.length ≤ maxShardBytes)
    (decoded : Shard.decode env.toPrimitives run.root.digest kind index run.shards bytes = .ok shard) :
    (reader.shard env budget run kind index).Safe (archiveWorld env backend faulty)
      (archiveProtocol env accepts backend) owner (Prog.Gives (Excused faulty gets base)
        (fun result later => result.1 = shard ∧ Charging base gets left result.2 later)) state := by
  intro later moves inv reply after stepped
  have idle := step_idle inv stepped (fun _ => rfl) trivial
  refine ⟨idle.1, idle.2, ?_⟩
  have kept := charging.kept
  have reached := Kept.trans kept (Kept.trans moves idle.2)
  cases reply with
  | some known =>
      apply Prog.safe_ret_gives
      intro final moved _
      rcases Inv.memo inv (step_shardsGet stepped known rfl) with
        ⟨run', shards', kind', index', bytes', path, present, decoded'⟩
      cases path
      have content : later.content (.summary run.root.digest run.shards kind index) = some bytes :=
        Kept.content moves rfl (kept.content rfl held)
      have same : bytes' = bytes := Option.some.inj (present.symm.trans content)
      rw [same, decoded] at decoded'
      refine ⟨(Except.ok.inj decoded').symm, ?_⟩
      exact (charging.fewer (Nat.le_succ left)).later (Kept.trans moves (Kept.trans idle.2 moved))
  | none =>
      cases paid : budget.charge maxShardBytes with
      | error error => exact Prog.safe_fail_gives (charging.spent (Nat.le_refl _) paid)
      | ok rest =>
          have charged : Charging base gets left rest after := by
            rw [Budget.charge_ok paid]
            exact (charging.spend (Nat.le_refl _)).later (Kept.trans moves idle.2)
          apply (getBounded_gives reached held rfl small).gives_bind
          intro found middle moved _ same
          subst same
          rw [decoded]
          intro last moved' inv' unit_ final stepped'
          have present : Holds last (.summary run.root.digest run.shards kind index) found :=
            Kept.content moved' rfl (Kept.content moved rfl (reached.content rfl held))
          have inserted := step_shardsInsert inv' present decoded stepped'
          refine ⟨inserted.1, inserted.2, Prog.safe_ret_gives ?_⟩
          intro _ moved'' _
          exact ⟨rfl, charged.later (Kept.trans moved (Kept.trans moved' (Kept.trans inserted.2 moved'')))⟩

/-- The summary of a piece never misses a key of it. -/
theorem mayContain_gives {reader : Reader} {budget : Budget} {piece : Piece env} {key : Bytes} {left : Nat}
    (charging : Charging base gets (left + 2) budget state)
    (stored : ∀ object ∈ piece.stored, Holds base object.1 object.2) :
    (reader.mayContain env budget piece.run key).Safe (archiveWorld env backend faulty)
      (archiveProtocol env accepts backend) owner (Prog.Gives (Excused faulty gets base)
        (fun result later => (result.1 = false → ∀ record ∈ piece.records, record.key ≠ key) ∧
          Charging base gets left result.2 later)) state := by
  rcases piece.filters with ⟨filter, shards, nonzero, reports⟩
  rcases shards .address _ (shardIndex_lt env.toPrimitives (route (group key)) nonzero) with
    ⟨bytes, member, small, decoded⟩
  rcases shards .spill _ (spillIndex_lt (env.sha256 key) nonzero) with
    ⟨bytes', member', small', decoded'⟩
  apply (shard_gives charging (stored _ member) small decoded).gives_bind
  rintro ⟨address, budget'⟩ middle moves _ ⟨rfl, charged⟩
  have later := charged.fewer (Nat.le_succ left)
  dsimp only
  split
  · exact Prog.safe_ret_gives (fun _ moved _ => ⟨Bool.noConfusion, later.later moved⟩)
  · next noKey =>
      split
      · next noMarker =>
          apply Prog.safe_ret_gives
          intro _ moved _
          refine ⟨?_, later.later moved⟩
          intro _ record held same
          subst same
          rcases reports record held with light | ⟨heavy, _⟩
          · exact noKey light
          · have unmarked : Shard.contains env.toPrimitives ⟨filter .address
                (Probe.new env.toPrimitives record.key piece.run.shards).addressIndex⟩
                (Probe.new env.toPrimitives record.key piece.run.shards).marker = false :=
              (Bool.not_eq_true' _).mp noMarker
            rw [unmarked] at heavy
            cases heavy
      · apply (shard_gives charged (stored _ member') small' decoded').gives_bind
        rintro ⟨spill, budget''⟩ last _ _ ⟨rfl, charged'⟩
        apply Prog.safe_ret_gives
        intro _ moved _
        refine ⟨?_, charged'.later moved⟩
        intro absent record held same
        subst same
        rcases reports record held with light | ⟨_, spilled⟩
        · exact noKey light
        · have missing : Shard.contains env.toPrimitives ⟨filter .spill
              (Probe.new env.toPrimitives record.key piece.run.shards).spillIndex⟩ record.key = false := absent
          rw [missing] at spilled
          cases spilled

/-! Lookups over the runs of a head. -/

/-- A run as a reader holds it. -/
structure Indexed (piece : Piece env) (pair : Run × RunReader) : Prop where
  run : pair.1 = piece.run
  tree : ∃ (tree : RunTree env.toPrimitives) (objects : List EncodedObject),
    tree.Stores piece.records objects ∧ pair.2 = tree.reader ∧
      ∀ object ∈ objectPuts objects, object ∈ piece.stored

theorem ObjectRef.Within.mono {reference : ObjectRef} {low high : Nat} (within : reference.Within low)
    (le : low ≤ high) : reference.Within high := ⟨within.positive, within.bounded.trans le⟩

theorem Leaf.objects_within (leaf : Leaf env.toPrimitives) :
    ∀ object ∈ leaf.objects, object.reference.Within pageLimit ∧ object.Addressed env.toPrimitives := by
  intro object member
  rcases List.mem_cons.mp member with rfl | inPages
  · exact ⟨leaf.within.mono (by decide), leaf.made⟩
  · rcases List.mem_map.mp inPages with ⟨page, _, rfl⟩
    rcases encodePage_eq_ok page.encoded with ⟨_, _, _, _, made⟩
    exact ⟨encodePage_within page.encoded, addressed_of_makeObject made⟩

theorem Partition.objects_within (part : Partition env.toPrimitives) :
    ∀ object ∈ part.objects, object.reference.Within pageLimit ∧ object.Addressed env.toPrimitives := by
  intro object member
  cases part with
  | empty => cases member
  | single leaf => exact leaf.objects_within object member
  | several leaves index many indexed made =>
      rcases List.mem_cons.mp member with rfl | inLeaves
      · exact ⟨(encodeIndex_within rfl indexed made).mono (by decide), made⟩
      · rcases List.mem_flatMap.mp inLeaves with ⟨leaf, _, inside⟩
        exact leaf.objects_within object inside

theorem RunTree.Stores.fetchable {tree : RunTree env.toPrimitives} {records : List Record}
    {objects : List EncodedObject} (stores : tree.Stores records objects)
    (stored : AllStored (objectPuts objects) base) : tree.Readable (Fetchable env base) := by
  refine ⟨stores.routed, ?_⟩
  intro shard object member
  rcases (tree.part shard).objects_within object member with ⟨within, addressed⟩
  exact ⟨stored _ (List.mem_map_of_mem (stores.parts shard object member)), within, addressed⟩

theorem Indexed.lookup_safe {piece : Piece env} {pair : Run × RunReader} {budget : Budget} {key : Bytes}
    {block : UInt64} {left : Nat} (indexed : Indexed piece pair) (lossless : env.toPrimitives.Lossless)
    (charging : Charging base gets (left + 3) budget state)
    (stored : ∀ object ∈ piece.stored, Holds base object.1 object.2) (nonempty : key ≠ []) :
    (Prog.handle (chargedFetch env) budget (pair.2.lookup env.toPrimitives key block)).Safe
      (archiveWorld env backend faulty) (archiveProtocol env accepts backend) owner
      (Prog.Delivers (fun result later =>
        Yields (Excused faulty gets base) (Newest piece.records key block) result.1 ∧
          Charging base gets left result.2 later)) state := by
  rcases indexed.tree with ⟨tree, objects, stores, same, inside⟩
  have readable : tree.Readable (Fetchable env base) :=
    stores.fetchable (fun object member => stored object (inside object member))
  rw [same]
  have serving : Serving env.toPrimitives (Fetchable env base) (Excused faulty gets base) :=
    serving_fetchable lossless
  refine (RunTree.lookup_meets serving stores readable nonempty).safe_handle
    (fun more budget later => Charging base gets (left + more) budget later)
    (lookup_atMost _ key block) (lookup_asks _ key block) ?_ ?_ charging
  · intro reference more budget now short here
    exact chargedFetch_safe short here
  · intro more _ _ _ moves _ here
    exact Charging.later (here.fewer (Nat.le_add_right left more)) moves

theorem newest_min {records : List Record} {key : Bytes} {block last : UInt64} {value : Option Bytes}
    (bounded : ∀ record ∈ records, record.block ≤ last)
    (newest : Newest records key (min block last) value) : Newest records key block value := by
  cases value with
  | none =>
      intro record member same
      by_contra low
      have both : record.block ≤ min block last := le_min (le_of_not_gt low) (bounded record member)
      exact absurd (newest record member same) (not_lt_of_ge both)
  | some value =>
      rcases newest with ⟨record, member, same, low, valued, greatest⟩
      refine ⟨record, member, same, low.trans (min_le_left _ _), valued, ?_⟩
      intro other present otherSame otherLow
      exact greatest other present otherSame (le_min otherLow (bounded other present))

/-- Records that cannot match are passed over. -/
theorem newest_skip {newer older : List Record} {key : Bytes} {block : UInt64} {value : Option Bytes}
    (none : ∀ record ∈ newer, record.key = key → ¬ record.block ≤ block) :
    Newest (newer ++ older) key block value ↔ Newest older key block value := by
  apply newest_congr
  intro record same low
  rw [List.mem_append]
  exact ⟨fun either => either.resolve_left (fun member => none record member same low), .inr⟩

/-- A value found among newer records is the newest. -/
theorem newest_found {newer older : List Record} {key : Bytes} {block : UInt64} {value : Bytes}
    (before : ∀ old ∈ older, ∀ new ∈ newer, old.block ≤ new.block)
    (newest : Newest newer key block (some value)) : Newest (newer ++ older) key block (some value) := by
  rcases newest with ⟨record, member, same, low, valued, greatest⟩
  refine ⟨record, List.mem_append_left _ member, same, low, valued, ?_⟩
  intro other present otherSame otherLow
  rcases List.mem_append.mp present with isNew | isOld
  · exact greatest other isNew otherSame otherLow
  · exact before other isOld record member

/-- A lookup finds the newest value over all runs, given newest first, in five GETs
for each of them. -/
theorem lookupRuns_gives {reader : Reader} {key : Bytes} {block : UInt64} {pieces : List (Piece env)}
    {pairs : List (Run × RunReader)} {budget : Budget} {left : Nat} (lossless : env.toPrimitives.Lossless)
    (charging : Charging base gets (left + 5 * pairs.length) budget state)
    (indexed : List.Forall₂ Indexed pieces pairs)
    (stored : ∀ piece ∈ pieces, ∀ object ∈ piece.stored, Holds base object.1 object.2)
    (ordered : pieces.Pairwise (fun newer older => older.run.last < newer.run.start))
    (nonempty : key ≠ []) :
    (reader.lookupRuns env key block pairs budget).Safe (archiveWorld env backend faulty)
      (archiveProtocol env accepts backend) owner (Prog.Gives (Excused faulty gets base)
        (fun result later => Newest (pieces.flatMap Piece.records) key block result.1 ∧
          Charging base gets left result.2 later)) state := by
  induction indexed generalizing state budget with
  | nil =>
      apply Prog.safe_ret_gives
      intro _ moves _
      refine ⟨?_, charging.later moves⟩
      intro record member
      cases member
  | @cons piece pair pieces pairs here rest ih =>
      rcases List.pairwise_cons.mp ordered with ⟨newest, ordered'⟩
      have stored' : ∀ piece ∈ pieces, ∀ object ∈ piece.stored, Holds base object.1 object.2 :=
        fun other member => stored other (List.mem_cons_of_mem _ member)
      have before : ∀ old ∈ pieces.flatMap Piece.records, ∀ new ∈ piece.records, old.block ≤ new.block := by
        intro old oldMember new newMember
        rcases List.mem_flatMap.mp oldMember with ⟨other, isPiece, held⟩
        have low := (other.inside old held).2
        have high := (piece.inside new newMember).1
        exact le_trans low (le_trans (le_of_lt (newest other isPiece)) high)
      have charged : Charging base gets (left + 5 * pairs.length + 3 + 2) budget state :=
        charging.fewer (by simp only [List.length_cons]; omega)
      -- the rest of the runs, when this one has nothing to say
      have skip : ∀ {later : ArchiveSystem} {budget : Budget},
          Charging base gets (left + 5 * pairs.length) budget later →
          (∀ record ∈ piece.records, record.key = key → ¬ record.block ≤ block) →
          (reader.lookupRuns env key block pairs budget).Safe (archiveWorld env backend faulty)
            (archiveProtocol env accepts backend) owner (Prog.Gives (Excused faulty gets base)
              (fun result later => Newest ((piece :: pieces).flatMap Piece.records) key block result.1 ∧
                Charging base gets left result.2 later)) later := by
        intro later budget reached none
        apply (ih reached stored' ordered').weaken
        intro outcome final _ _ given
        rcases given with ⟨result, done, found, ends⟩ | failed
        · refine .inl ⟨result, done, ?_, ends⟩
          rw [List.flatMap_cons]
          exact (newest_skip none).mpr found
        · exact .inr failed
      rcases pair with ⟨run, index⟩
      have run_eq : run = piece.run := here.run
      subst run_eq
      unfold Reader.lookupRuns
      split
      · next late =>
          apply skip (charged.fewer (by omega))
          intro record member _ low
          exact absurd (lt_of_lt_of_le late ((piece.inside record member).1.trans low)) (lt_irrefl _)
      · apply (mayContain_gives charged (stored piece List.mem_cons_self)).gives_bind
        rintro ⟨maybe, budget'⟩ middle moves _ ⟨misses, charged'⟩
        dsimp only
        split
        · next absent =>
            apply skip (charged'.fewer (by omega))
            intro record member same _
            exact misses (by simpa using absent) record member same
        · apply (here.lookup_safe lossless charged'
            (stored piece List.mem_cons_self) nonempty).delivers_gives.gives_bind
          rintro ⟨result, budget''⟩ last moves' _ ⟨yielded, reached⟩
          rcases yielded with ⟨value, rfl, found⟩ | ⟨error, rfl, excused⟩
          · have found' := newest_min (fun record member => (piece.inside record member).2) found
            cases value with
            | some value =>
                apply Prog.safe_ret_gives
                intro _ moved _
                rw [List.flatMap_cons]
                exact ⟨newest_found before found', (reached.fewer (by omega)).later moved⟩
            | none =>
                apply skip reached
                intro record member same low
                exact absurd (found' record member same) (not_lt_of_ge low)
          · exact Prog.safe_fail_gives excused

end

end Fossil

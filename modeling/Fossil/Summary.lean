import Fossil.Bits
import Fossil.RunFormat
import Mathlib.Data.List.Nodup

/-! Membership summaries of a run.

Every key of an address goes to the address's shard. An address with more than
`heavyGroup` keys leaves a marker there instead and its keys go to spill shards
routed by their own digest. -/

namespace Fossil

def summaryMagic : Bytes := [0x46, 0x54, 0x53, 0x4d]
def headerBytes : Nat := 4 + 1 + 32 + 1 + 4 + 4
def shardKeys : Nat := 32 * 1024
def bitsPerKey : Nat := 16
def hashCount : Nat := 11
def heavyGroup : Nat := 4096
def maxShardBytes : Nat := 1024 * 1024

/-- The tag byte plus the 20-byte address, or a whole short key. -/
def group (key : Bytes) : Bytes := key.take (min key.length 21)
def route (group : Bytes) : Bytes := group.drop (min 1 group.length)
def marker (group : Bytes) : Bytes := 0xff :: group

def spillIndex (digest : Hash32) (shards : UInt32) : UInt32 :=
  ofBe32 ((digest.bytes.drop 16).take 4) &&& (shards - 1)

def hashes (digest : Hash32) : UInt64 × UInt64 :=
  (ofBe64 (digest.bytes.take 8), ofBe64 ((digest.bytes.drop 8).take 8) ||| 1)

/-- The bits a digest selects in a filter of `total` bits. -/
def bitPositions (total : Nat) (digest : Hash32) : List Nat :=
  (List.range hashCount).map (fun i =>
    ((hashes digest).1 + UInt64.ofNat i * (hashes digest).2).toNat % total)

def insertBits (bits : Bytes) (digest : Hash32) : Bytes :=
  setBits bits (bitPositions (bits.length * 8) digest)

def containsBits (bits : Bytes) (digest : Hash32) : Bool :=
  (bitPositions (bits.length * 8) digest).all (testBit bits)

def divCeil (n d : Nat) : Nat := (n + d - 1) / d

def nextPowerOfTwo (n : Nat) : Nat := if n ≤ 1 then 1 else 2 ^ (Nat.log2 (n - 1) + 1)

/-- Shard count for a run expected to hold `keys` distinct keys. -/
def shardCount (keys : UInt64) : UInt32 :=
  UInt32.ofNat (nextPowerOfTwo (max (divCeil keys.toNat shardKeys) 1))

/-- Bytes of one filter when `keys` keys are spread over `shards` shards. -/
def filterBytes (keys : UInt64) (shards : UInt32) : Nat :=
  divCeil (max (divCeil keys.toNat shards.toNat) 64 * bitsPerKey) 8

structure SummaryBuilder where
  shards : UInt32
  address : List Bytes
  spill : List Bytes
  group : Bytes
  pending : List Hash32
  heavy : Bool
  keys : UInt64
  deriving DecidableEq

/-- A verified filter. -/
structure Shard where
  bits : Bytes
  deriving DecidableEq

structure Probe where
  addressIndex : UInt32
  spillIndex : UInt32
  marker : Bytes

def insertRow (rows : List Bytes) (index : Nat) (digest : Hash32) : List Bytes :=
  rows.modify index (fun bits => insertBits bits digest)

def insertRows (rows : List Bytes) (items : List (Nat × Hash32)) : List Bytes :=
  items.foldl (fun rows item => insertRow rows item.1 item.2) rows

section

variable (env : Primitives)

def shardIndex (bytes : Bytes) (shards : UInt32) : UInt32 :=
  ofBe32 ((env.sha256 bytes).bytes.take 4) &&& (shards - 1)

def SummaryBuilder.new (expectedKeys : UInt64) : Result SummaryBuilder :=
  let shards := shardCount expectedKeys
  -- The quotient below panics when the shard count was truncated to zero.
  if shards = 0 then bail "attempt to divide by zero"
  else
    let bytes := filterBytes expectedKeys shards
    if headerBytes + bytes + 32 > maxShardBytes then bail "summary shard exceeds the 1 MiB bound"
    else
      let rows := List.replicate shards.toNat (List.replicate bytes 0)
      .ok ⟨shards, rows, rows, [], [], false, 0⟩

def SummaryBuilder.flush (builder : SummaryBuilder) : SummaryBuilder :=
  let index := (shardIndex env (route builder.group) builder.shards).toNat
  { builder with
    address := if !builder.heavy && !builder.pending.isEmpty then
        insertRows builder.address (builder.pending.map (fun digest => (index, digest)))
      else builder.address
    pending := []
    heavy := false }

/-- Leave the marker of the open group and move its pending keys to spill shards. -/
def SummaryBuilder.makeHeavy (builder : SummaryBuilder) : SummaryBuilder :=
  let index := (shardIndex env (route builder.group) builder.shards).toNat
  { builder with
    heavy := true
    address := insertRow builder.address index (env.sha256 (Fossil.marker builder.group))
    spill := insertRows builder.spill (builder.pending.map (fun digest =>
      ((Fossil.spillIndex digest builder.shards).toNat, digest)))
    pending := [] }

/-- Switch to the group of the next key. -/
def SummaryBuilder.enter (builder : SummaryBuilder) (key : Bytes) : SummaryBuilder :=
  if Fossil.group key ≠ builder.group then { builder.flush env with group := Fossil.group key }
  else builder

def SummaryBuilder.add (builder : SummaryBuilder) (key : Bytes) : SummaryBuilder :=
  let entered := { builder.enter env key with keys := builder.keys + 1 }
  let digest := env.sha256 key
  if entered.heavy then
    { entered with
      spill := insertRow entered.spill (Fossil.spillIndex digest entered.shards).toNat digest }
  else
    let pushed := { entered with pending := entered.pending ++ [digest] }
    if pushed.pending.length > heavyGroup then pushed.makeHeavy env else pushed

def shardBody (run : Hash32) (shards : UInt32) (kind : ShardKind) (index : UInt32)
    (bits : Bytes) : Bytes :=
  summaryMagic ++ [formatVersion] ++ run.bytes ++ [kind.byte] ++ be32 index ++ be32 shards ++ bits

def encodeShard (run : Hash32) (shards : UInt32) (kind : ShardKind) (index : UInt32)
    (bits : Bytes) : Bytes :=
  let body := shardBody run shards kind index bits
  body ++ (env.sha256 body).bytes

def encodeRows (run : Hash32) (shards : UInt32) (kind : ShardKind) (rows : List Bytes) :
    List (Key × Bytes) :=
  rows.zipIdx.map (fun row =>
    (.summary run shards kind (UInt32.ofNat row.2),
      encodeShard env run shards kind (UInt32.ofNat row.2) row.1))

/-- All shards of the run whose root digest is `run`. -/
def SummaryBuilder.finish (builder : SummaryBuilder) (run : Hash32) : List (Key × Bytes) :=
  let flushed := builder.flush env
  encodeRows env run flushed.shards .address flushed.address ++
    encodeRows env run flushed.shards .spill flushed.spill

def Shard.decode (run : Hash32) (kind : ShardKind) (index shards : UInt32) (bytes : Bytes) :
    Result Shard :=
  if bytes.length ≤ headerBytes + 32 ∨ bytes.length > maxShardBytes then
    bail "invalid summary shard length"
  else
    let body := bytes.take (bytes.length - 32)
    let check := bytes.drop (bytes.length - 32)
    if (env.sha256 body).bytes ≠ check ∨ body.take 4 ≠ summaryMagic ∨
        body.getD 4 0 ≠ formatVersion ∨ (body.drop 5).take 32 ≠ run.bytes ∨
        body.getD 37 0 ≠ kind.byte ∨ (body.drop 38).take 4 ≠ be32 index ∨
        (body.drop 42).take 4 ≠ be32 shards then
      bail "summary shard does not match its run"
    else .ok ⟨body.drop headerBytes⟩

def Shard.contains (shard : Shard) (item : Bytes) : Bool := containsBits shard.bits (env.sha256 item)

def Probe.new (key : Bytes) (shards : UInt32) : Probe :=
  ⟨shardIndex env (route (group key)) shards, Fossil.spillIndex (env.sha256 key) shards,
    Fossil.marker (group key)⟩

end

/-! Filters only gain members. -/

theorem insertBits_length (bits : Bytes) (digest : Hash32) :
    (insertBits bits digest).length = bits.length := setBits_length bits _

theorem containsBits_insertBits (bits : Bytes) (digest : Hash32) (nonempty : bits ≠ []) :
    containsBits (insertBits bits digest) digest = true := by
  rw [containsBits, insertBits_length, List.all_eq_true]
  intro position member
  apply testBit_setBits_of_mem bits _ position member
  rcases List.mem_map.mp member with ⟨i, _, rfl⟩
  have size := List.length_pos_iff.mpr nonempty
  have bound := Nat.mod_lt ((hashes digest).1 + UInt64.ofNat i * (hashes digest).2).toNat
    (show 0 < bits.length * 8 by omega)
  omega

theorem containsBits_insertBits_mono (bits : Bytes) (digest other : Hash32)
    (present : containsBits bits other = true) :
    containsBits (insertBits bits digest) other = true := by
  rw [containsBits, insertBits_length, List.all_eq_true]
  intro position member
  exact testBit_setBits_mono bits _ position (List.all_eq_true.mp present position member)

/-- Whether the filter in one row reports a digest. -/
def has (rows : List Bytes) (index : Nat) (digest : Hash32) : Prop :=
  containsBits (rows.getD index []) digest = true

/-- Every row is a filter of `size` bytes. -/
def Rows (rows : List Bytes) (count size : Nat) : Prop :=
  rows.length = count ∧ ∀ bits ∈ rows, bits.length = size

theorem Rows.insertRow {rows : List Bytes} {count size : Nat} (sized : Rows rows count size)
    (index : Nat) (digest : Hash32) : Rows (insertRow rows index digest) count size := by
  refine ⟨by simpa [Fossil.insertRow] using sized.1, ?_⟩
  intro bits member
  rcases List.getElem_of_mem member with ⟨i, bound, rfl⟩
  simp only [Fossil.insertRow, List.getElem_modify]
  split
  · rw [insertBits_length]
    exact sized.2 _ (List.getElem_mem _)
  · exact sized.2 _ (List.getElem_mem _)

theorem Rows.insertRows {rows : List Bytes} {count size : Nat} (sized : Rows rows count size)
    (items : List (Nat × Hash32)) : Rows (insertRows rows items) count size := by
  induction items generalizing rows with
  | nil => exact sized
  | cons item rest ih => exact ih (sized.insertRow item.1 item.2)

theorem has_insertRow_mono {rows : List Bytes} {i : Nat} {digest other : Hash32} (index : Nat)
    (present : has rows i other) : has (insertRow rows index digest) i other := by
  unfold has at present ⊢
  rw [insertRow, List.getD_eq_getElem?_getD] at *
  by_cases same : index = i
  · rw [same, List.getElem?_modify_eq]
    cases found : rows[i]? with
    | none => simpa [found] using present
    | some bits =>
        rw [found] at present
        exact containsBits_insertBits_mono bits digest other present
  · rw [List.getElem?_modify_ne _ _ same]
    exact present

theorem has_insertRows_mono {rows : List Bytes} {i : Nat} {other : Hash32}
    (items : List (Nat × Hash32)) (present : has rows i other) : has (insertRows rows items) i other := by
  induction items generalizing rows with
  | nil => exact present
  | cons item rest ih => exact ih (has_insertRow_mono item.1 present)

theorem has_insertRow_self {rows : List Bytes} {count size : Nat} (sized : Rows rows count size)
    (positive : 0 < size) {index : Nat} (inside : index < count) (digest : Hash32) :
    has (insertRow rows index digest) index digest := by
  have bound : index < rows.length := by rw [sized.1]; exact inside
  unfold has
  rw [insertRow, List.getD_eq_getElem?_getD, List.getElem?_modify_eq,
    List.getElem?_eq_getElem bound]
  apply containsBits_insertBits
  apply List.ne_nil_of_length_pos
  rw [sized.2 _ (List.getElem_mem bound)]
  exact positive

theorem has_insertRows_of_mem {rows : List Bytes} {count size : Nat} (sized : Rows rows count size)
    (positive : 0 < size) {items : List (Nat × Hash32)} {item : Nat × Hash32}
    (member : item ∈ items) (inside : item.1 < count) :
    has (insertRows rows items) item.1 item.2 := by
  induction items generalizing rows with
  | nil => cases member
  | cons first rest ih =>
      rcases List.mem_cons.mp member with rfl | later
      · exact has_insertRows_mono rest (has_insertRow_self sized positive inside item.2)
      · exact ih (sized.insertRow first.1 first.2) later

theorem masked_lt (value shards : UInt32) (nonzero : shards ≠ 0) :
    (value &&& (shards - 1)).toNat < shards.toNat := by
  have positive : 0 < shards.toNat := by
    rcases Nat.eq_zero_or_pos shards.toNat with zero | positive
    · exact absurd (UInt32.toNat_inj.mp (by simpa using zero)) nonzero
    · exact positive
  have one : (1 : UInt32) ≤ shards := by
    rw [UInt32.le_iff_toNat_le]
    exact positive
  rw [UInt32.toNat_and, UInt32.toNat_sub_of_le _ _ one]
  have bound : value.toNat &&& (shards.toNat - (1 : UInt32).toNat) ≤
      shards.toNat - (1 : UInt32).toNat := Nat.and_le_right
  have unit : (1 : UInt32).toNat = 1 := rfl
  omega

theorem shardIndex_lt (env : Primitives) (bytes : Bytes) {shards : UInt32} (nonzero : shards ≠ 0) :
    (shardIndex env bytes shards).toNat < shards.toNat := masked_lt _ _ nonzero

theorem spillIndex_lt (digest : Hash32) {shards : UInt32} (nonzero : shards ≠ 0) :
    (spillIndex digest shards).toNat < shards.toNat := masked_lt _ _ nonzero

/-! No false negatives. -/

section

variable (env : Primitives)

/-- What every builder keeps: filters of one positive size, and the marker of a heavy group. -/
structure SummaryBuilder.Valid (builder : SummaryBuilder) (size : Nat) : Prop where
  nonzero : builder.shards ≠ 0
  positive : 0 < size
  address : Rows builder.address builder.shards.toNat size
  spill : Rows builder.spill builder.shards.toNat size
  marked : builder.heavy = true →
    has builder.address (shardIndex env (route builder.group) builder.shards).toNat
      (env.sha256 (Fossil.marker builder.group))

/-- The probe for a key succeeds on the filters as they are. -/
def SummaryBuilder.Placed (builder : SummaryBuilder) (key : Bytes) : Prop :=
  let index := (shardIndex env (route (Fossil.group key)) builder.shards).toNat
  has builder.address index (env.sha256 key) ∨
    has builder.address index (env.sha256 (Fossil.marker (Fossil.group key))) ∧
      has builder.spill (Fossil.spillIndex (env.sha256 key) builder.shards).toNat (env.sha256 key)

/-- A key that was added is placed, or waits in the open group. -/
def SummaryBuilder.Holds (builder : SummaryBuilder) (key : Bytes) : Prop :=
  builder.Placed env key ∨
    builder.heavy = false ∧ builder.group = Fossil.group key ∧ env.sha256 key ∈ builder.pending

variable {env} {builder : SummaryBuilder} {size : Nat}

theorem SummaryBuilder.Placed.mono {other : SummaryBuilder} {key : Bytes}
    (placed : builder.Placed env key) (shards : other.shards = builder.shards)
    (address : ∀ index digest, has builder.address index digest → has other.address index digest)
    (spill : ∀ index digest, has builder.spill index digest → has other.spill index digest) :
    other.Placed env key := by
  unfold SummaryBuilder.Placed at placed ⊢
  rw [shards]
  rcases placed with light | ⟨mark, heavy⟩
  · exact .inl (address _ _ light)
  · exact .inr ⟨address _ _ mark, spill _ _ heavy⟩

variable (env) in
theorem SummaryBuilder.flush_address (builder : SummaryBuilder) :
    (builder.flush env).address = builder.address ∨
      (builder.flush env).address = insertRows builder.address (builder.pending.map (fun digest =>
        ((shardIndex env (route builder.group) builder.shards).toNat, digest))) := by
  simp only [SummaryBuilder.flush]
  split
  · exact .inr rfl
  · exact .inl rfl

theorem SummaryBuilder.has_flush {index : Nat} {digest : Hash32}
    (present : has builder.address index digest) : has (builder.flush env).address index digest := by
  rcases builder.flush_address env with same | grown
  · rw [same]
    exact present
  · rw [grown]
    exact has_insertRows_mono _ present

theorem SummaryBuilder.Valid.flush (valid : builder.Valid env size) :
    (builder.flush env).Valid env size := by
  refine ⟨valid.nonzero, valid.positive, ?_, valid.spill, by simp [SummaryBuilder.flush]⟩
  rcases builder.flush_address env with same | grown
  · rw [same]
    exact valid.address
  · rw [grown]
    exact valid.address.insertRows _

/-- Flushing places every key of the open group. -/
theorem SummaryBuilder.Holds.flush (valid : builder.Valid env size) {key : Bytes}
    (holds : builder.Holds env key) : (builder.flush env).Placed env key := by
  rcases holds with placed | ⟨light, same, member⟩
  · exact placed.mono rfl (fun _ _ => has_flush) (fun _ _ present => present)
  · have flushed : (builder.flush env).address = insertRows builder.address
        (builder.pending.map (fun digest =>
          ((shardIndex env (route builder.group) builder.shards).toNat, digest))) := by
      have waiting : builder.pending.isEmpty = false :=
        List.isEmpty_eq_false_iff_exists_mem.mpr ⟨_, member⟩
      simp [SummaryBuilder.flush, light, waiting]
    have listed := List.mem_map_of_mem (f := fun digest =>
      ((shardIndex env (route builder.group) builder.shards).toNat, digest)) member
    have inserted := has_insertRows_of_mem valid.address valid.positive listed
      (shardIndex_lt env _ valid.nonzero)
    rw [← flushed, same] at inserted
    exact .inl inserted

theorem SummaryBuilder.Valid.makeHeavy (valid : builder.Valid env size) :
    (builder.makeHeavy env).Valid env size where
  nonzero := valid.nonzero
  positive := valid.positive
  address := valid.address.insertRow _ _
  spill := valid.spill.insertRows _
  marked := fun _ => has_insertRow_self valid.address valid.positive
    (shardIndex_lt env _ valid.nonzero) _

/-- A group that turns heavy has its marker set and its waiting keys in spill shards. -/
theorem SummaryBuilder.Holds.makeHeavy (valid : builder.Valid env size) {key : Bytes}
    (holds : builder.Holds env key) : (builder.makeHeavy env).Placed env key := by
  rcases holds with placed | ⟨_, same, member⟩
  · exact placed.mono rfl (fun index _ => has_insertRow_mono _)
      (fun _ _ => has_insertRows_mono _)
  · have mark := (valid.makeHeavy).marked rfl
    have listed := List.mem_map_of_mem (f := fun digest : Hash32 =>
      ((Fossil.spillIndex digest builder.shards).toNat, digest)) member
    have spilled := has_insertRows_of_mem valid.spill valid.positive listed
      (spillIndex_lt _ valid.nonzero)
    change has _ (shardIndex env (route builder.group) builder.shards).toNat
      (env.sha256 (Fossil.marker builder.group)) at mark
    rw [same] at mark
    exact .inr ⟨mark, spilled⟩

theorem SummaryBuilder.Valid.enter (valid : builder.Valid env size) (key : Bytes) :
    (builder.enter env key).Valid env size := by
  unfold SummaryBuilder.enter
  split
  · exact { valid.flush with marked := by simp [SummaryBuilder.flush] }
  · exact valid

variable (env) in
theorem SummaryBuilder.enter_group (builder : SummaryBuilder) (key : Bytes) :
    (builder.enter env key).group = Fossil.group key := by
  unfold SummaryBuilder.enter
  split
  next => rfl
  next same => exact (not_not.mp same).symm

theorem SummaryBuilder.Holds.enter (valid : builder.Valid env size) {key : Bytes}
    (holds : builder.Holds env key) (next : Bytes) : (builder.enter env next).Holds env key := by
  unfold SummaryBuilder.enter
  split
  · exact .inl (holds.flush valid)
  · exact holds

/-- One added key, given the builder that has entered its group. -/
theorem SummaryBuilder.add_eq (builder : SummaryBuilder) (key : Bytes) :
    builder.add env key =
      if (builder.enter env key).heavy then
        { builder.enter env key with
          keys := builder.keys + 1
          spill := insertRow (builder.enter env key).spill
            (Fossil.spillIndex (env.sha256 key) (builder.enter env key).shards).toNat
            (env.sha256 key) }
      else if (builder.enter env key).pending.length + 1 > heavyGroup then
        SummaryBuilder.makeHeavy env { builder.enter env key with
          keys := builder.keys + 1
          pending := (builder.enter env key).pending ++ [env.sha256 key] }
      else
        { builder.enter env key with
          keys := builder.keys + 1
          pending := (builder.enter env key).pending ++ [env.sha256 key] } := by
  simp only [SummaryBuilder.add, List.length_append, List.length_singleton]

theorem SummaryBuilder.Valid.add (valid : builder.Valid env size) (key : Bytes) :
    (builder.add env key).Valid env size := by
  have entered := valid.enter key
  rw [SummaryBuilder.add_eq]
  split
  · exact { entered with spill := entered.spill.insertRow _ _ }
  · have pushed : ({ builder.enter env key with
        keys := builder.keys + 1
        pending := (builder.enter env key).pending ++ [env.sha256 key] } :
          SummaryBuilder).Valid env size := { entered with }
    split
    · exact pushed.makeHeavy
    · exact pushed

/-- Adding a key keeps every earlier one and takes in the new one. -/
theorem SummaryBuilder.Holds.add (valid : builder.Valid env size) {key : Bytes} (next : Bytes)
    (holds : builder.Holds env key ∨ key = next) : (builder.add env next).Holds env key := by
  have entered := valid.enter next
  have same := builder.enter_group env next
  rw [SummaryBuilder.add_eq]
  split
  next heavy =>
    have mark := entered.marked heavy
    left
    rcases holds with holds | rfl
    · rcases holds.enter valid next with placed | ⟨light, _, _⟩
      · exact placed.mono rfl (fun _ _ present => present) (fun _ _ => has_insertRow_mono _)
      · rw [heavy] at light
        cases light
    · rw [same] at mark
      exact .inr ⟨mark, has_insertRow_self entered.spill entered.positive
        (spillIndex_lt _ entered.nonzero) _⟩
  next light =>
    have pushed : ({ builder.enter env next with
        keys := builder.keys + 1
        pending := (builder.enter env next).pending ++ [env.sha256 next] } :
          SummaryBuilder).Holds env key := by
      rcases holds with holds | rfl
      · rcases holds.enter valid next with placed | ⟨_, group, member⟩
        · exact .inl placed
        · exact .inr ⟨by simpa using light, group, List.mem_append_left _ member⟩
      · exact .inr ⟨by simpa using light, same, by simp⟩
    have pushedValid : ({ builder.enter env next with
        keys := builder.keys + 1
        pending := (builder.enter env next).pending ++ [env.sha256 next] } :
          SummaryBuilder).Valid env size := { entered with }
    split
    · exact .inl (pushed.makeHeavy pushedValid)
    · exact pushed

theorem SummaryBuilder.new_eq_ok {expected : UInt64} {builder : SummaryBuilder}
    (made : SummaryBuilder.new expected = .ok builder) :
    builder.shards = shardCount expected ∧ builder.keys = 0 ∧
      headerBytes + filterBytes expected builder.shards + 32 ≤ maxShardBytes ∧
      builder.Valid env (filterBytes expected builder.shards) := by
  unfold SummaryBuilder.new at made
  rcases guard_eq_ok.mp made with ⟨nonzero, made⟩
  rcases guard_eq_ok.mp made with ⟨small, made⟩
  cases made
  have rows : Rows (List.replicate (shardCount expected).toNat
      (List.replicate (filterBytes expected (shardCount expected)) 0))
      (shardCount expected).toNat (filterBytes expected (shardCount expected)) := by
    refine ⟨List.length_replicate, ?_⟩
    intro bits member
    rw [List.eq_of_mem_replicate member, List.length_replicate]
  have positive : 0 < filterBytes expected (shardCount expected) := by
    unfold filterBytes divCeil bitsPerKey
    omega
  exact ⟨rfl, rfl, Nat.le_of_not_gt small, nonzero, positive, rows, rows, by simp⟩

/-- The builder after a sequence of keys. -/
def SummaryBuilder.addAll (env : Primitives) (builder : SummaryBuilder) (keys : List Bytes) :
    SummaryBuilder :=
  keys.foldl (SummaryBuilder.add env) builder

theorem SummaryBuilder.enter_shards (builder : SummaryBuilder) (key : Bytes) :
    (builder.enter env key).shards = builder.shards := by
  unfold SummaryBuilder.enter
  split <;> rfl

theorem SummaryBuilder.add_shards (builder : SummaryBuilder) (key : Bytes) :
    (builder.add env key).shards = builder.shards := by
  rw [SummaryBuilder.add_eq]
  split
  · exact builder.enter_shards key
  · split <;> exact builder.enter_shards key

theorem SummaryBuilder.add_keys (builder : SummaryBuilder) (key : Bytes) :
    (builder.add env key).keys = builder.keys + 1 := by
  rw [SummaryBuilder.add_eq]
  split
  · rfl
  · split <;> rfl

theorem SummaryBuilder.addAll_shards (builder : SummaryBuilder) (keys : List Bytes) :
    (builder.addAll env keys).shards = builder.shards := by
  induction keys generalizing builder with
  | nil => rfl
  | cons key rest ih => exact (ih (builder.add env key)).trans (builder.add_shards key)

theorem SummaryBuilder.addAll_keys (builder : SummaryBuilder) (keys : List Bytes) :
    (builder.addAll env keys).keys = builder.keys + UInt64.ofNat keys.length := by
  induction keys generalizing builder with
  | nil => simp [SummaryBuilder.addAll]
  | cons key rest ih =>
      calc ((builder.add env key).addAll env rest).keys
          = (builder.add env key).keys + UInt64.ofNat rest.length := ih _
        _ = builder.keys + (1 + UInt64.ofNat rest.length) := by
            rw [builder.add_keys, UInt64.add_assoc]
        _ = builder.keys + UInt64.ofNat (key :: rest).length := by
            rw [List.length_cons, UInt64.ofNat_add, UInt64.add_comm 1]
            rfl

theorem SummaryBuilder.Valid.addAll (valid : builder.Valid env size) (keys : List Bytes) :
    (builder.addAll env keys).Valid env size := by
  induction keys generalizing builder with
  | nil => exact valid
  | cons key rest ih => exact ih (valid.add key)

theorem SummaryBuilder.Holds.addAll (valid : builder.Valid env size) {key : Bytes}
    (keys : List Bytes) (holds : builder.Holds env key ∨ key ∈ keys) :
    (builder.addAll env keys).Holds env key := by
  induction keys generalizing builder with
  | nil =>
      rcases holds with holds | member
      · exact holds
      · cases member
  | cons next rest ih =>
      apply ih (valid.add next)
      rcases holds with holds | member
      · exact .inl (Holds.add valid next (.inl holds))
      · rcases List.mem_cons.mp member with same | later
        · exact .inl (Holds.add valid next (.inr same))
        · exact .inr later

/-! Encoded shards. -/

theorem shardBody_length (run : Hash32) (shards : UInt32) (kind : ShardKind) (index : UInt32)
    (bits : Bytes) : (shardBody run shards kind index bits).length = headerBytes + bits.length := by
  simp only [shardBody, summaryMagic, headerBytes, List.length_append, List.length_cons,
    List.length_nil, run.width, be32_length]

/-- A shard decodes only under its own run, kind, index and shard count. -/
theorem Shard.decode_encodeShard (run : Hash32) (shards : UInt32) (kind : ShardKind)
    (index : UInt32) (bits : Bytes) (positive : 0 < bits.length)
    (small : headerBytes + bits.length + 32 ≤ maxShardBytes) :
    Shard.decode env run kind index shards (encodeShard env run shards kind index bits) =
      .ok ⟨bits⟩ := by
  have bodyLength := shardBody_length run shards kind index bits
  have check := (env.sha256 (shardBody run shards kind index bits)).width
  have length : (encodeShard env run shards kind index bits).length - 32 =
      (shardBody run shards kind index bits).length := by
    simp only [encodeShard, List.length_append, check]
    omega
  have front : (encodeShard env run shards kind index bits).take
      ((encodeShard env run shards kind index bits).length - 32) =
      shardBody run shards kind index bits := by
    rw [length]
    exact List.take_left
  have back : (encodeShard env run shards kind index bits).drop
      ((encodeShard env run shards kind index bits).length - 32) =
      (env.sha256 (shardBody run shards kind index bits)).bytes := by
    rw [length]
    exact List.drop_left
  have total : (encodeShard env run shards kind index bits).length =
      headerBytes + bits.length + 32 := by
    simp only [encodeShard, List.length_append, check, bodyLength]
  unfold Shard.decode
  rw [front, back, total, if_neg (by omega)]
  -- The header fields sit at their fixed offsets.
  have fields : shardBody run shards kind index bits =
      summaryMagic ++ ([formatVersion] ++ (run.bytes ++ ([kind.byte] ++
        (be32 index ++ (be32 shards ++ bits))))) := by
    simp only [shardBody, List.append_assoc]
  have magic : (shardBody run shards kind index bits).take 4 = summaryMagic := by
    rw [fields]
    exact List.take_left' rfl
  have after : (shardBody run shards kind index bits).drop 5 =
      run.bytes ++ ([kind.byte] ++ (be32 index ++ (be32 shards ++ bits))) := by
    rw [fields, ← List.append_assoc]
    exact List.drop_left' rfl
  have later (n : Nat) : (shardBody run shards kind index bits).drop (5 + n) =
      (run.bytes ++ ([kind.byte] ++ (be32 index ++ (be32 shards ++ bits)))).drop n := by
    rw [← List.drop_drop, after]
  have tagged : (shardBody run shards kind index bits).drop 37 =
      kind.byte :: (be32 index ++ (be32 shards ++ bits)) := by
    rw [later 32]
    exact List.drop_left' run.width
  have indexed : (shardBody run shards kind index bits).drop 38 =
      be32 index ++ (be32 shards ++ bits) := by
    rw [show 38 = 37 + 1 from rfl, ← List.drop_drop, tagged]
    rfl
  have counted : (shardBody run shards kind index bits).drop 42 = be32 shards ++ bits := by
    rw [show 42 = 38 + 4 from rfl, ← List.drop_drop, indexed]
    exact List.drop_left' (be32_length index)
  have body : (shardBody run shards kind index bits).drop headerBytes = bits := by
    rw [show headerBytes = 42 + 4 from rfl, ← List.drop_drop, counted]
    exact List.drop_left' (be32_length shards)
  have tag : (shardBody run shards kind index bits).getD 37 0 = kind.byte := by
    rw [← Nat.add_zero 37, List.getD_eq_getElem?_getD, ← List.getElem?_drop, tagged]
    rfl
  have version : (shardBody run shards kind index bits).getD 4 0 = formatVersion := by
    rw [fields]
    rfl
  rw [if_neg, body]
  rw [magic, version, after, tag, indexed, counted, List.take_left' run.width,
    List.take_left' (be32_length index), List.take_left' (be32_length shards)]
  simp

theorem encodeRows_mem {run : Hash32} {shards : UInt32} {kind : ShardKind} {rows : List Bytes}
    {size : Nat} (sized : Rows rows shards.toNat size) {index : UInt32}
    (inside : index.toNat < shards.toNat) :
    (Key.summary run shards kind index, encodeShard env run shards kind index
      (rows.getD index.toNat [])) ∈ encodeRows env run shards kind rows := by
  have bound : index.toNat < rows.length := by rw [sized.1]; exact inside
  apply List.mem_map.mpr
  refine ⟨(rows.getD index.toNat [], index.toNat), ?_, ?_⟩
  · rw [List.mem_zipIdx_iff_getElem?, List.getD_eq_getElem?_getD, List.getElem?_eq_getElem bound]
    rfl
  · simp

theorem finish_keys {run : Hash32} {object : Key × Bytes} (member : object ∈ builder.finish env run) :
    ∃ kind index, object.1 = .summary run builder.shards kind index := by
  rcases List.mem_append.mp member with inAddress | inSpill
  · rcases List.mem_map.mp inAddress with ⟨row, _, rfl⟩
    exact ⟨_, _, rfl⟩
  · rcases List.mem_map.mp inSpill with ⟨row, _, rfl⟩
    exact ⟨_, _, rfl⟩

/-- The filters of one kind. -/
def SummaryBuilder.rows (builder : SummaryBuilder) : ShardKind → List Bytes
  | .address => builder.address
  | .spill => builder.spill

/-- A shard of a finished summary, found at its path, decodes to its filter. -/
theorem SummaryBuilder.finish_shard (valid : builder.Valid env size)
    (small : headerBytes + size + 32 ≤ maxShardBytes) (run : Hash32) (kind : ShardKind)
    {index : UInt32} (inside : index.toNat < builder.shards.toNat) :
    ∃ bytes, (Key.summary run builder.shards kind index, bytes) ∈ builder.finish env run ∧
      bytes.length = headerBytes + size + 32 ∧
      Shard.decode env run kind index builder.shards bytes =
        .ok ⟨((builder.flush env).rows kind).getD index.toNat []⟩ := by
  have flushed := valid.flush
  have member : ∀ rows, Rows rows builder.shards.toNat size →
      (rows.getD index.toNat []).length = size := by
    intro rows sized
    have bound : index.toNat < rows.length := by rw [sized.1]; exact inside
    rw [List.getD_eq_getElem?_getD, List.getElem?_eq_getElem bound]
    exact sized.2 _ (List.getElem_mem bound)
  have decoded : ∀ rows, Rows rows builder.shards.toNat size →
      (encodeShard env run builder.shards kind index (rows.getD index.toNat [])).length =
        headerBytes + size + 32 ∧
      Shard.decode env run kind index builder.shards
        (encodeShard env run builder.shards kind index (rows.getD index.toNat [])) =
        .ok ⟨rows.getD index.toNat []⟩ := by
    intro rows sized
    have width := member rows sized
    refine ⟨?_, Shard.decode_encodeShard _ _ _ _ _ (width ▸ valid.positive) (width ▸ small)⟩
    simp only [encodeShard, List.length_append, shardBody_length, Fixed.width, width]
  cases kind with
  | address =>
      refine ⟨_, List.mem_append_left _ (encodeRows_mem flushed.address inside), ?_⟩
      exact decoded _ flushed.address
  | spill =>
      refine ⟨_, List.mem_append_right _ (encodeRows_mem flushed.spill inside), ?_⟩
      exact decoded _ flushed.spill

/-- Every encoded row sits at a path of its own, where it decodes. -/
theorem encodeRows_decode {run : Hash32} {shards : UInt32} {kind : ShardKind} {rows : List Bytes}
    (sized : Rows rows shards.toNat size) (positive : 0 < size)
    (small : headerBytes + size + 32 ≤ maxShardBytes) {object : Key × Bytes}
    (member : object ∈ encodeRows env run shards kind rows) :
    ∃ index shard, object.1 = .summary run shards kind index ∧
      Shard.decode env run kind index shards object.2 = .ok shard := by
  rcases List.mem_map.mp member with ⟨⟨bits, place⟩, listed, rfl⟩
  have width := sized.2 bits (List.fst_mem_of_mem_zipIdx listed)
  exact ⟨_, _, rfl, Shard.decode_encodeShard _ _ _ _ _ (width ▸ positive) (width ▸ small)⟩

theorem encodeRows_paths {run : Hash32} {shards : UInt32} {kind : ShardKind} {rows : List Bytes}
    (sized : Rows rows shards.toNat size) :
    (encodeRows env run shards kind rows).map Prod.fst =
      (List.range shards.toNat).map (fun place => .summary run shards kind (UInt32.ofNat place)) := by
  have places := List.zipIdx_map_snd 0 rows
  rw [encodeRows, List.map_map, ← sized.1, List.range_eq_range', ← places, List.map_map]
  rfl

theorem encodeRows_nodup {run : Hash32} {shards : UInt32} {kind : ShardKind} {rows : List Bytes}
    (sized : Rows rows shards.toNat size) :
    ((encodeRows env run shards kind rows).map Prod.fst).Nodup := by
  rw [encodeRows_paths sized]
  refine List.Nodup.map_on ?_ List.nodup_range
  intro left inLeft right inRight same
  have bound := UInt32.toNat_lt shards
  rw [List.mem_range] at inLeft inRight
  have indexes := congrArg UInt32.toNat (Key.summary.inj same).2.2.2
  rw [UInt32.toNat_ofNat_of_lt' (inLeft.trans bound), UInt32.toNat_ofNat_of_lt' (inRight.trans bound)]
    at indexes
  exact indexes

/-- The shards of a summary have paths of their own. -/
theorem SummaryBuilder.finish_nodup {builder : SummaryBuilder} {size : Nat} (valid : builder.Valid env size)
    (run : Hash32) : ((builder.finish env run).map Prod.fst).Nodup := by
  have flushed := valid.flush
  rw [SummaryBuilder.finish, List.map_append, List.nodup_append]
  refine ⟨encodeRows_nodup flushed.address, encodeRows_nodup flushed.spill, ?_⟩
  rw [encodeRows_paths flushed.address, encodeRows_paths flushed.spill]
  intro path inAddress other inSpill same
  rcases List.mem_map.mp inAddress with ⟨_, _, rfl⟩
  rcases List.mem_map.mp inSpill with ⟨_, _, rfl⟩
  cases (Key.summary.inj same).2.2.1

/-- Summaries have no false negatives: every shard decodes at its own path, and
the probe for any added key answers yes. -/
theorem probe_added {expected : UInt64} {empty : SummaryBuilder}
    (made : SummaryBuilder.new expected = .ok empty) (keys : List Bytes) (run : Hash32) :
    let builder := empty.addAll env keys
    ((builder.finish env run).map Prod.fst).Nodup ∧
    (∀ object ∈ builder.finish env run, ∃ kind index shard,
      object.1 = .summary run builder.shards kind index ∧
        Shard.decode env run kind index builder.shards object.2 = .ok shard) ∧
    ∀ key ∈ keys, ∃ addressBytes address spillBytes spill,
      let probe := Probe.new env key builder.shards
      (Key.summary run builder.shards .address probe.addressIndex, addressBytes) ∈ builder.finish env run ∧
      Shard.decode env run .address probe.addressIndex builder.shards addressBytes = .ok address ∧
      (Key.summary run builder.shards .spill probe.spillIndex, spillBytes) ∈ builder.finish env run ∧
      Shard.decode env run .spill probe.spillIndex builder.shards spillBytes = .ok spill ∧
      (address.contains env key = true ∨
        address.contains env probe.marker = true ∧ spill.contains env key = true) := by
  intro builder
  rcases (SummaryBuilder.new_eq_ok made : _ ∧ _ ∧ _ ∧ empty.Valid env _) with ⟨_, _, small, initially⟩
  have valid : builder.Valid env (filterBytes expected empty.shards) := initially.addAll keys
  have flushed := valid.flush
  refine ⟨SummaryBuilder.finish_nodup valid run, ?_, ?_⟩
  · intro object member
    rcases List.mem_append.mp member with inAddress | inSpill
    · exact ⟨_, encodeRows_decode flushed.address valid.positive small inAddress⟩
    · exact ⟨_, encodeRows_decode flushed.spill valid.positive small inSpill⟩
  · intro key member
    have placed := (SummaryBuilder.Holds.addAll initially keys (.inr member)).flush valid
    rcases SummaryBuilder.finish_shard valid small run .address
      (shardIndex_lt env (route (group key)) valid.nonzero) with ⟨addressBytes, inAddress, _, address⟩
    rcases SummaryBuilder.finish_shard valid small run .spill
      (spillIndex_lt (env.sha256 key) valid.nonzero) with ⟨spillBytes, inSpill, _, spill⟩
    exact ⟨addressBytes, _, spillBytes, _, inAddress, address, inSpill, spill, placed⟩

end

/-! A summary of one short key, with the digests it really has. -/

def singleRun : Hash32 :=
  .ofNat 0xb64e123db430090be97bc1b3ebe0c85c403dc632a593ada58c29361aa957d429

def singleEmpty : SummaryBuilder :=
  ⟨1, [List.replicate 128 0], [List.replicate 128 0], [], [], false, 0⟩

def singlePrimitives : Primitives where
  sha256 := digestOf [
    ([], 0xe3b0c44298fc1c149afbf4c8996fb92427ae41e4649b934ca495991b7852b855),
    ([0x61], 0xca978112ca1bbdcafac231b39a23dc4da786eff8147c4e72b9807785afee48bb),
    ([0xff, 0x61], 0x6446546190caef8efbaf9e738e2fe8ac30583ec4bf2c0f6468f8c4a47bda0e91),
    (shardBody singleRun 1 .address 0 (insertBits (List.replicate 128 0)
      (.ofNat 0xca978112ca1bbdcafac231b39a23dc4da786eff8147c4e72b9807785afee48bb)),
      0xe967f0cc0fcf2939938a36d7435a99d77c53c041308f03505406c2216c48a28b),
    (shardBody singleRun 1 .spill 0 (List.replicate 128 0),
      0x6b5801645ed75395607eba6dfcfb03fa6e91dc078de20ea8c5a3078572195045)]
  zstdCompress _ := bail "not used by summaries"
  zstdDecompress _ _ := bail "not used by summaries"

theorem new_single : SummaryBuilder.new 1 = .ok singleEmpty := by decide +kernel

theorem probe_added_single :
    SummaryBuilder.new 1 = .ok singleEmpty ∧
    let builder := singleEmpty.addAll singlePrimitives [[0x61]]
    let probe := Probe.new singlePrimitives [0x61] builder.shards
    ∃ addressBytes address spillBytes spill,
      (Key.summary singleRun builder.shards .address probe.addressIndex, addressBytes) ∈
        builder.finish singlePrimitives singleRun ∧
      Shard.decode singlePrimitives singleRun .address probe.addressIndex builder.shards addressBytes =
        .ok address ∧
      (Key.summary singleRun builder.shards .spill probe.spillIndex, spillBytes) ∈
        builder.finish singlePrimitives singleRun ∧
      Shard.decode singlePrimitives singleRun .spill probe.spillIndex builder.shards spillBytes =
        .ok spill ∧
      (address.contains singlePrimitives [0x61] = true ∨
        address.contains singlePrimitives probe.marker = true ∧
          spill.contains singlePrimitives [0x61] = true) :=
  ⟨new_single, (probe_added new_single [[0x61]] singleRun).2.2 [0x61] (List.mem_singleton.mpr rfl)⟩

/-- The shard that holds the key is the one the table of digests was made for. -/
example : (singleEmpty.addAll singlePrimitives [[0x61]]).finish singlePrimitives singleRun =
    [(.summary singleRun 1 .address 0, shardBody singleRun 1 .address 0 (insertBits
        (List.replicate 128 0) (singlePrimitives.sha256 [0x61])) ++
        (Fixed.ofNat 0xe967f0cc0fcf2939938a36d7435a99d77c53c041308f03505406c2216c48a28b : Hash32).bytes),
      (.summary singleRun 1 .spill 0, shardBody singleRun 1 .spill 0 (List.replicate 128 0) ++
        (Fixed.ofNat 0x6b5801645ed75395607eba6dfcfb03fa6e91dc078de20ea8c5a3078572195045 : Hash32).bytes)] := by
  decide +kernel

end Fossil

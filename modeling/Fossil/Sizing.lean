import Fossil.Summary
import Fossil.Head

/-! How many shards a summary gets.

The count is a power of two cast to 32 bits. It survives the cast exactly up to
`2 ^ 46` keys; beyond that it becomes zero, and the builder divides by it. -/

namespace Fossil

theorem le_nextPowerOfTwo (n : Nat) : n ≤ nextPowerOfTwo n := by
  unfold nextPowerOfTwo
  split
  · next single => exact single
  · next large =>
      have below : n - 1 < 2 ^ (Nat.log2 (n - 1) + 1) := Nat.lt_log2_self
      omega

theorem nextPowerOfTwo_eq (n : Nat) : ∃ k, nextPowerOfTwo n = 2 ^ k := by
  unfold nextPowerOfTwo
  split
  · exact ⟨0, rfl⟩
  · exact ⟨_, rfl⟩

/-- The next power is the least one: no power at or above `n` is below it. -/
theorem nextPowerOfTwo_le {n k : Nat} (bound : n ≤ 2 ^ k) : nextPowerOfTwo n ≤ 2 ^ k := by
  unfold nextPowerOfTwo
  split
  · exact Nat.one_le_two_pow
  · next large =>
      have nonzero : n - 1 ≠ 0 := by omega
      have short : Nat.log2 (n - 1) < k := (Nat.log2_lt nonzero).mpr (by omega)
      exact Nat.pow_le_pow_right (by decide) short

theorem isPowerOfTwo_two_pow : ∀ k < 32, isPowerOfTwo (UInt32.ofNat (2 ^ k)) = true := by decide

/-- The shards the keys need before the cast. -/
def neededShards (keys : UInt64) : Nat := max (divCeil keys.toNat shardKeys) 1

theorem keys_le_neededShards (keys : UInt64) : keys.toNat ≤ neededShards keys * shardKeys := by
  unfold neededShards divCeil shardKeys
  omega

theorem neededShards_le {keys : UInt64} (bound : keys.toNat ≤ 2 ^ 46) : neededShards keys ≤ 2 ^ 31 := by
  unfold neededShards divCeil shardKeys
  omega

theorem lt_neededShards {keys : UInt64} (large : 2 ^ 46 < keys.toNat) : 2 ^ 31 < neededShards keys := by
  unfold neededShards divCeil shardKeys
  omega

/-- Beyond the bound the power has nothing left in its low 32 bits. -/
theorem shardCount_eq_zero {keys : UInt64} (large : 2 ^ 46 < keys.toNat) : shardCount keys = 0 := by
  rcases nextPowerOfTwo_eq (neededShards keys) with ⟨k, power⟩
  have above : 2 ^ 31 < 2 ^ k := by
    calc 2 ^ 31 < neededShards keys := lt_neededShards large
      _ ≤ nextPowerOfTwo (neededShards keys) := le_nextPowerOfTwo _
      _ = 2 ^ k := power
  have tall : 32 ≤ k := (Nat.pow_lt_pow_iff_right (by decide)).mp above
  apply UInt32.toNat_inj.mp
  show nextPowerOfTwo (neededShards keys) % 2 ^ 32 = 0
  rw [power]
  exact Nat.mod_eq_zero_of_dvd (Nat.pow_dvd_pow 2 tall)

/-- Up to the bound the cast changes nothing. -/
theorem shardCount_toNat {keys : UInt64} (bound : keys.toNat ≤ 2 ^ 46) :
    (shardCount keys).toNat = nextPowerOfTwo (neededShards keys) := by
  have small : nextPowerOfTwo (neededShards keys) ≤ 2 ^ 31 := nextPowerOfTwo_le (neededShards_le bound)
  show nextPowerOfTwo (neededShards keys) % 2 ^ 32 = _
  exact Nat.mod_eq_of_lt (by omega)

theorem isPowerOfTwo_shardCount {keys : UInt64} (nonzero : shardCount keys ≠ 0) :
    isPowerOfTwo (shardCount keys) = true := by
  have bound : keys.toNat ≤ 2 ^ 46 := by
    by_contra large
    exact nonzero (shardCount_eq_zero (Nat.lt_of_not_le large))
  rcases nextPowerOfTwo_eq (neededShards keys) with ⟨k, power⟩
  have small : 2 ^ k < 2 ^ 32 := by
    rw [← power, ← shardCount_toNat bound]
    exact (shardCount keys).toNat_lt
  have same : shardCount keys = UInt32.ofNat (2 ^ k) := by
    rw [← power]
    rfl
  rw [same]
  exact isPowerOfTwo_two_pow k ((Nat.pow_lt_pow_iff_right (by decide)).mp small)

/-- The share of the keys that each shard is sized for. -/
def perShard (keys : UInt64) : Nat := max (divCeil keys.toNat (shardCount keys).toNat) 64

theorem divCeil_le {n d q : Nat} (positive : 0 < d) (bound : n ≤ d * q) : divCeil n d ≤ q := by
  unfold divCeil
  have below : n + d - 1 < d * (q + 1) := by
    rw [Nat.mul_succ]
    omega
  exact Nat.le_of_lt_succ ((Nat.div_lt_iff_lt_mul positive).mpr (by rwa [Nat.mul_comm] at below))

theorem perShard_le {keys : UInt64} (nonzero : shardCount keys ≠ 0)
    (covered : keys.toNat ≤ (shardCount keys).toNat * shardKeys) : perShard keys ≤ shardKeys := by
  have positive : 0 < (shardCount keys).toNat := by
    apply Nat.pos_of_ne_zero
    intro zero
    exact nonzero (UInt32.toNat_inj.mp zero)
  have share := divCeil_le positive covered
  unfold perShard
  exact max_le share (by decide)

theorem filterBytes_le {keys : UInt64} (share : perShard keys ≤ shardKeys) :
    headerBytes + filterBytes keys (shardCount keys) + 32 ≤ maxShardBytes := by
  have bytes : filterBytes keys (shardCount keys) = divCeil (perShard keys * bitsPerKey) 8 := rfl
  rw [bytes]
  unfold divCeil headerBytes bitsPerKey maxShardBytes
  unfold shardKeys at share
  omega

section

variable (env : Primitives)

theorem encodeShard_length (run : Hash32) (shards : UInt32) (kind : ShardKind) (index : UInt32)
    (bits : Bytes) :
    (encodeShard env run shards kind index bits).length = headerBytes + bits.length + 32 := by
  simp only [encodeShard, List.length_append, shardBody_length, Fixed.width]

theorem encodeRows_length {run : Hash32} {shards : UInt32} {kind : ShardKind} {rows : List Bytes}
    {count size : Nat} (sized : Rows rows count size) {object : Key × Bytes}
    (member : object ∈ encodeRows env run shards kind rows) :
    object.2.length = headerBytes + size + 32 := by
  rcases List.mem_map.mp member with ⟨row, inside, rfl⟩
  rw [encodeShard_length]
  rw [sized.2 row.1 (List.fst_mem_of_mem_zipIdx inside)]

/-- All the shards a builder made for `keys` keys writes, whatever it was given. -/
theorem finish_length_le {keys : UInt64} {builder : SummaryBuilder}
    (made : SummaryBuilder.new keys = .ok builder) (added : List Bytes) (run : Hash32) :
    ∀ object ∈ (builder.addAll env added).finish env run, object.2.length ≤ maxShardBytes := by
  have facts : _ ∧ _ ∧ _ ∧ builder.Valid env _ := SummaryBuilder.new_eq_ok made
  have flushed := (facts.2.2.2.addAll added).flush
  intro object member
  rcases List.mem_append.mp member with inAddress | inSpill
  · exact (encodeRows_length env flushed.address inAddress).trans_le facts.2.2.1
  · exact (encodeRows_length env flushed.spill inSpill).trans_le facts.2.2.1

/-- What a shard count owes: a power of two that covers the keys, from which the
builder starts without overflow and writes only shards within the bound. -/
structure Sized (keys : UInt64) : Prop where
  power : isPowerOfTwo (shardCount keys) = true
  positive : 1 ≤ shardCount keys
  covers : keys.toNat ≤ (shardCount keys).toNat * shardKeys
  fits : perShard keys * bitsPerKey < 2 ^ 64
  builds : ∃ builder, SummaryBuilder.new keys = .ok builder ∧ ∀ added run,
    ∀ object ∈ (builder.addAll env added).finish env run, object.2.length ≤ maxShardBytes

theorem SummaryBuilder.new_of_small {keys : UInt64} (nonzero : shardCount keys ≠ 0)
    (small : headerBytes + filterBytes keys (shardCount keys) + 32 ≤ maxShardBytes) :
    ∃ builder, SummaryBuilder.new keys = .ok builder := by
  unfold SummaryBuilder.new
  rw [if_neg nonzero, if_neg (Nat.not_lt.mpr small)]
  exact ⟨_, rfl⟩

/-- The sizing is sound for exactly the counts whose power survives the cast. -/
theorem sized_iff (keys : UInt64) : Sized env keys ↔ keys.toNat ≤ 2 ^ 46 := by
  constructor
  · intro sized
    by_contra large
    have power := sized.power
    rw [shardCount_eq_zero (Nat.lt_of_not_le large)] at power
    cases power
  · intro bound
    have covers : keys.toNat ≤ (shardCount keys).toNat * shardKeys := by
      rw [shardCount_toNat bound]
      calc keys.toNat ≤ neededShards keys * shardKeys := keys_le_neededShards keys
        _ ≤ nextPowerOfTwo (neededShards keys) * shardKeys :=
            Nat.mul_le_mul_right _ (le_nextPowerOfTwo _)
    have nonzero : shardCount keys ≠ 0 := by
      intro zero
      have value := shardCount_toNat bound
      rw [zero] at value
      have needed : 1 ≤ neededShards keys := le_max_right _ _
      have above := le_nextPowerOfTwo (neededShards keys)
      rw [← value] at above
      exact absurd (needed.trans above) (by decide)
    have share := perShard_le nonzero covers
    rcases SummaryBuilder.new_of_small nonzero (filterBytes_le share) with ⟨builder, made⟩
    refine ⟨isPowerOfTwo_shardCount nonzero, ?_, covers, ?_, builder, made, finish_length_le env made⟩
    · apply UInt32.le_iff_toNat_le.mpr
      exact Nat.pos_of_ne_zero (fun zero => nonzero (UInt32.toNat_inj.mp zero))
    · unfold shardKeys at share
      unfold bitsPerKey
      omega

end

/-- One key past `2 ^ 46`: the count is cast to zero and the builder divides by it. -/
theorem shardCount_truncated :
    shardCount 70368744177665 = 0 ∧ isPowerOfTwo (shardCount 70368744177665) = false ∧
      SummaryBuilder.new 70368744177665 = bail "attempt to divide by zero" := by
  decide +kernel

end Fossil

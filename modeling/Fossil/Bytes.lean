import Mathlib.Algebra.Order.Ring.Nat
import Mathlib.Data.List.Lex
import Mathlib.Data.Prod.Lex

/-! Byte strings, their lexicographic order and fixed-width big-endian integers.

Nothing here names the archive: a parser consumes a list from the left and
either returns the unread suffix or an error carrying its chain of messages. -/

namespace Fossil

abbrev Bytes := List UInt8

/-- An error with its chain of contexts, outermost first. -/
abbrev Error := List String

abbrev Result := Except Error

def bail {α : Type} (message : String) : Result α := .error [message]

/-- Attach an outer context to an error; successes pass through. -/
def context {α : Type} (message : String) : Result α → Result α
  | .ok value => .ok value
  | .error error => .error (message :: error)

@[simp] theorem context_ok {α : Type} (message : String) (value : α) :
    context message (.ok value : Result α) = .ok value := rfl

@[simp] theorem context_eq_ok {α : Type} (message : String) (result : Result α) (value : α) :
    context message result = .ok value ↔ result = .ok value := by
  cases result <;> simp [context]

@[simp] theorem ok_bind {ε α β : Type} (value : α) (next : α → Except ε β) :
    (Except.ok value >>= next) = next value := rfl

@[simp] theorem error_bind {ε α β : Type} (error : ε) (next : α → Except ε β) :
    (Except.error error >>= next) = .error error := rfl

/-- The sequential reading of a `?` chain: a successful bind has a successful head. -/
theorem bind_eq_ok {ε α β : Type} {first : Except ε α} {next : α → Except ε β} {value : β} :
    (first >>= next) = .ok value ↔ ∃ middle, first = .ok middle ∧ next middle = .ok value := by
  cases first with
  | error error => simp [bind, Except.bind]
  | ok middle => simp [bind, Except.bind]

@[simp] theorem bail_ne_ok {α : Type} (message : String) (value : α) :
    (bail message : Result α) ≠ .ok value := by
  simp [bail]

theorem guard_eq_ok {α : Type} {condition : Prop} [Decidable condition] {message : String}
    {next : Result α} {value : α} :
    (if condition then bail message else next) = .ok value ↔ ¬ condition ∧ next = .ok value := by
  by_cases holds : condition <;> simp [holds]

instance linearOrderUInt8 : LinearOrder UInt8 where
  le_refl := UInt8.le_refl
  le_trans := fun _ _ _ => UInt8.le_trans
  le_antisymm := fun _ _ => UInt8.le_antisymm
  le_total := UInt8.le_total
  toDecidableLE := inferInstance
  lt_iff_le_not_ge := by
    intro left right
    simp only [UInt8.lt_iff_toNat_lt, UInt8.le_iff_toNat_le]
    omega

instance linearOrderUInt64 : LinearOrder UInt64 where
  le_refl := UInt64.le_refl
  le_trans := fun _ _ _ => UInt64.le_trans
  le_antisymm := fun _ _ => UInt64.le_antisymm
  le_total := UInt64.le_total
  toDecidableLE := inferInstance
  lt_iff_le_not_ge := by
    intro left right
    simp only [UInt64.lt_iff_toNat_lt, UInt64.le_iff_toNat_le]
    omega

/-- Exactly `width` big-endian bytes, truncating modulo `256 ^ width`. -/
def beBytes : Nat → Nat → Bytes
  | 0, _ => []
  | width + 1, n => UInt8.ofNat (n / 256 ^ width) :: beBytes width n

/-- Big-endian unsigned integer represented by a byte list. -/
def ofBe : Bytes → Nat
  | [] => 0
  | byte :: rest => byte.toNat * 256 ^ rest.length + ofBe rest

@[simp] theorem beBytes_length (width n : Nat) : (beBytes width n).length = width := by
  induction width with
  | zero => rfl
  | succ width ih => simp [beBytes, ih]

theorem ofBe_lt (bytes : Bytes) : ofBe bytes < 256 ^ bytes.length := by
  induction bytes with
  | nil => simp [ofBe]
  | cons byte rest ih =>
      have bound := byte.toNat_lt
      have product : byte.toNat * 256 ^ rest.length ≤ 255 * 256 ^ rest.length :=
        Nat.mul_le_mul_right _ (by omega)
      simp only [ofBe, List.length_cons, Nat.pow_succ]
      omega

theorem ofBe_beBytes (width n : Nat) : ofBe (beBytes width n) = n % 256 ^ width := by
  induction width with
  | zero => simp [beBytes, ofBe, Nat.mod_one]
  | succ width ih =>
      simp only [beBytes, ofBe, beBytes_length, ih, UInt8.toNat_ofNat']
      rw [show 256 ^ (width + 1) = 256 ^ width * 2 ^ 8 from Nat.pow_succ 256 width, Nat.mod_mul]
      rw [Nat.mul_comm, Nat.add_comm]

private theorem beBytes_add_mul (width high low : Nat) :
    beBytes width (high * 256 ^ width + low) = beBytes width low := by
  induction width generalizing high with
  | zero => rfl
  | succ width ih =>
      have split : high * 256 ^ (width + 1) + low = high * 256 * 256 ^ width + low := by
        rw [Nat.pow_succ, Nat.mul_assoc, Nat.mul_comm 256]
      simp only [beBytes]
      rw [split, ih (high * 256)]
      congr 1
      rw [Nat.add_comm, Nat.add_mul_div_right _ _ (Nat.pow_pos (by decide))]
      rw [UInt8.ofNat_add]
      simp [UInt8.ofNat_mul]

/-- Fixed-width encoding is a left inverse of big-endian decoding. -/
theorem beBytes_ofBe (bytes : Bytes) : beBytes bytes.length (ofBe bytes) = bytes := by
  induction bytes with
  | nil => rfl
  | cons byte rest ih =>
      simp only [List.length_cons, beBytes, ofBe]
      rw [beBytes_add_mul, ih]
      congr 1
      rw [Nat.add_comm, Nat.add_mul_div_right _ _ (Nat.pow_pos (by decide)),
        Nat.div_eq_of_lt (ofBe_lt rest)]
      simp

def be32 (value : UInt32) : Bytes := beBytes 4 value.toNat
def be64 (value : UInt64) : Bytes := beBytes 8 value.toNat
def ofBe32 (bytes : Bytes) : UInt32 := UInt32.ofNat (ofBe bytes)
def ofBe64 (bytes : Bytes) : UInt64 := UInt64.ofNat (ofBe bytes)

@[simp] theorem be32_length (value : UInt32) : (be32 value).length = 4 := beBytes_length 4 _
@[simp] theorem be64_length (value : UInt64) : (be64 value).length = 8 := beBytes_length 8 _

@[simp] theorem ofBe32_be32 (value : UInt32) : ofBe32 (be32 value) = value := by
  rw [ofBe32, be32, ofBe_beBytes, Nat.mod_eq_of_lt (by simpa using value.toNat_lt)]
  simp

@[simp] theorem ofBe64_be64 (value : UInt64) : ofBe64 (be64 value) = value := by
  rw [ofBe64, be64, ofBe_beBytes, Nat.mod_eq_of_lt (by simpa using value.toNat_lt)]
  simp

theorem be32_ofBe32 (bytes : Bytes) (width : bytes.length = 4) : be32 (ofBe32 bytes) = bytes := by
  have bound := ofBe_lt bytes
  rw [width] at bound
  rw [be32, ofBe32, UInt32.toNat_ofNat_of_lt' (by simpa using bound), ← width]
  exact beBytes_ofBe bytes

theorem be64_ofBe64 (bytes : Bytes) (width : bytes.length = 8) : be64 (ofBe64 bytes) = bytes := by
  have bound := ofBe_lt bytes
  rw [width] at bound
  rw [be64, ofBe64, UInt64.toNat_ofNat_of_lt' (by simpa using bound), ← width]
  exact beBytes_ofBe bytes

theorem be32_injective : Function.Injective be32 := by
  intro left right same
  rw [← ofBe32_be32 left, same, ofBe32_be32]

theorem be64_injective : Function.Injective be64 := by
  intro left right same
  rw [← ofBe64_be64 left, same, ofBe64_be64]

/-- Consume exactly `count` bytes, or report the truncation. -/
def splitBytes (message : String) (count : Nat) (bytes : Bytes) : Result (Bytes × Bytes) :=
  if count ≤ bytes.length then .ok (bytes.take count, bytes.drop count) else bail message

@[simp] theorem splitBytes_append (message : String) (front back : Bytes) :
    splitBytes message front.length (front ++ back) = .ok (front, back) := by
  simp [splitBytes]

theorem splitBytes_of_length (message : String) (count : Nat) (front back : Bytes)
    (width : front.length = count) :
    splitBytes message count (front ++ back) = .ok (front, back) := by
  rw [← width, splitBytes_append]

theorem splitBytes_eq_ok {message : String} {count : Nat} {bytes front back : Bytes} :
    splitBytes message count bytes = .ok (front, back) ↔
      front.length = count ∧ bytes = front ++ back := by
  constructor
  · intro read
    unfold splitBytes at read
    split at read
    · cases read
      exact ⟨by simpa using ‹count ≤ bytes.length›, (List.take_append_drop count bytes).symm⟩
    · exact absurd read (bail_ne_ok _ _)
  · rintro ⟨rfl, rfl⟩
    exact splitBytes_append message front back

def readU32 (bytes : Bytes) : Result (UInt32 × Bytes) := do
  let (raw, rest) ← splitBytes "truncated run u32" 4 bytes
  .ok (ofBe32 raw, rest)

def readU64 (bytes : Bytes) : Result (UInt64 × Bytes) := do
  let (raw, rest) ← splitBytes "truncated run u64" 8 bytes
  .ok (ofBe64 raw, rest)

@[simp] theorem readU32_append (value : UInt32) (rest : Bytes) :
    readU32 (be32 value ++ rest) = .ok (value, rest) := by
  rw [readU32, splitBytes_of_length _ 4 _ _ (be32_length value)]
  simp [bind, Except.bind]

@[simp] theorem readU64_append (value : UInt64) (rest : Bytes) :
    readU64 (be64 value ++ rest) = .ok (value, rest) := by
  rw [readU64, splitBytes_of_length _ 8 _ _ (be64_length value)]
  simp [bind, Except.bind]

theorem readU32_eq_ok {bytes rest : Bytes} {value : UInt32}
    (read : readU32 bytes = .ok (value, rest)) : bytes = be32 value ++ rest := by
  obtain ⟨⟨raw, tail⟩, split, last⟩ := bind_eq_ok.mp read
  obtain ⟨width, rfl⟩ := splitBytes_eq_ok.mp split
  cases last
  rw [be32_ofBe32 raw width]

theorem readU64_eq_ok {bytes rest : Bytes} {value : UInt64}
    (read : readU64 bytes = .ok (value, rest)) : bytes = be64 value ++ rest := by
  obtain ⟨⟨raw, tail⟩, split, last⟩ := bind_eq_ok.mp read
  obtain ⟨width, rfl⟩ := splitBytes_eq_ok.mp split
  cases last
  rw [be64_ofBe64 raw width]

end Fossil

import Fossil.Bytes

/-! Digests, hexadecimal text and the keys of the object store. -/

namespace Fossil

/-- A byte array of fixed width. -/
structure Fixed (n : Nat) where
  bytes : Bytes
  width : bytes.length = n
  deriving DecidableEq

abbrev Hash32 := Fixed 32
abbrev Address := Fixed 20

namespace Fixed

variable {n : Nat}

theorem bytes_injective : Function.Injective (bytes : Fixed n → Bytes) := by
  rintro ⟨left, _⟩ ⟨right, _⟩ same
  cases same
  rfl

instance : LinearOrder (Fixed n) := LinearOrder.lift' bytes bytes_injective

theorem lt_iff (left right : Fixed n) : left < right ↔ left.bytes < right.bytes := Iff.rfl

/-- `try_into` of a slice: fails unless the width is exact. -/
def ofBytes (message : String) (raw : Bytes) : Result (Fixed n) :=
  if h : raw.length = n then .ok ⟨raw, h⟩ else bail message

@[simp] theorem ofBytes_bytes (message : String) (value : Fixed n) :
    (ofBytes message value.bytes : Result (Fixed n)) = .ok value := by
  rw [ofBytes, dif_pos value.width]

def zero : Fixed n := ⟨List.replicate n 0, List.length_replicate⟩

/-- The big-endian digits of a number. -/
def ofNat (value : Nat) : Fixed n := ⟨beBytes n value, beBytes_length n value⟩

end Fixed

/-- The hash and compression packages the codec calls. Decompression reads at
most the given number of bytes plus one, as the bounded reader does. -/
structure Primitives where
  sha256 : Bytes → Hash32
  zstdCompress : Bytes → Result Bytes
  zstdDecompress : Bytes → Nat → Result Bytes

/-- A digest function given by its values at some inputs. -/
def digestOf (rows : List (Bytes × Nat)) (bytes : Bytes) : Hash32 :=
  match rows.find? (fun row => row.1 = bytes) with
  | some row => .ofNat row.2
  | none => .zero

/-! Hexadecimal text. -/

/-- Text is a list of characters, so that it can be computed with. -/
abbrev Text := List Char

def hexDigits : Text :=
  ['0', '1', '2', '3', '4', '5', '6', '7', '8', '9', 'a', 'b', 'c', 'd', 'e', 'f']

def hexDigit (n : Nat) : Char := hexDigits.getD n '0'

def hexValue (c : Char) : Option Nat :=
  if '0' ≤ c ∧ c ≤ '9' then some (c.toNat - 48)
  else if 'a' ≤ c ∧ c ≤ 'f' then some (c.toNat - 87)
  else if 'A' ≤ c ∧ c ≤ 'F' then some (c.toNat - 55)
  else none

theorem hexValue_hexDigit : ∀ n < 16, hexValue (hexDigit n) = some n := by decide

def hexEncode (bytes : Bytes) : Text :=
  bytes.flatMap (fun byte => [hexDigit (byte.toNat / 16), hexDigit (byte.toNat % 16)])

def hexDecode : Text → Result Bytes
  | [] => .ok []
  | [_] => bail "Odd number of digits"
  | high :: low :: rest =>
      match hexValue high, hexValue low with
      | some h, some l => do
          let tail ← hexDecode rest
          .ok (UInt8.ofNat (h * 16 + l) :: tail)
      | _, _ => bail "Invalid character"

@[simp] theorem hexDecode_hexEncode (bytes : Bytes) : hexDecode (hexEncode bytes) = .ok bytes := by
  induction bytes with
  | nil => rfl
  | cons byte rest ih =>
      have high := hexValue_hexDigit (byte.toNat / 16) (by have := byte.toNat_lt; omega)
      have low := hexValue_hexDigit (byte.toNat % 16) (by omega)
      have whole : byte.toNat / 16 * 16 + byte.toNat % 16 = byte.toNat := by omega
      simp only [hexEncode, List.flatMap_cons, List.cons_append, List.nil_append, hexDecode,
        high, low]
      rw [show rest.flatMap _ = hexEncode rest from rfl, ih, whole]
      simp [bind, Except.bind]

theorem hexEncode_injective : Function.Injective hexEncode := by
  intro left right same
  have decoded := hexDecode_hexEncode left
  rw [same, hexDecode_hexEncode] at decoded
  exact (Except.ok.inj decoded).symm

theorem hexEncode_length (bytes : Bytes) : (hexEncode bytes).length = 2 * bytes.length := by
  induction bytes with
  | nil => rfl
  | cons byte rest ih =>
      simp only [hexEncode, List.flatMap_cons, List.length_append, List.length_cons,
        List.length_nil] at ih ⊢
      omega

/-! Keys of the store. -/

inductive ShardKind where
  | address
  | spill
  deriving DecidableEq, Repr

/-- The tag byte of a shard kind inside an encoded shard. -/
def ShardKind.byte : ShardKind → UInt8
  | .address => 0
  | .spill => 1

def ShardKind.tag : ShardKind → Char
  | .address => 'a'
  | .spill => 's'

/-- Every key the archive reads or writes. `Key.path` is the text the store sees. -/
inductive Key where
  | object (digest : Hash32)
  | summary (run : Hash32) (shards : UInt32) (kind : ShardKind) (index : UInt32)
  | head (chainId : UInt64)
  deriving DecidableEq

namespace Key

/-- `objects/sha256/` -/
def objectsDir : Text :=
  ['o', 'b', 'j', 'e', 'c', 't', 's', '/', 's', 'h', 'a', '2', '5', '6', '/']

/-- `summaries/` -/
def summariesDir : Text := ['s', 'u', 'm', 'm', 'a', 'r', 'i', 'e', 's', '/']

/-- `chains/` -/
def chainsDir : Text := ['c', 'h', 'a', 'i', 'n', 's', '/']

/-- `/heads/tiered-v1.json` -/
def headFile : Text :=
  ['/', 'h', 'e', 'a', 'd', 's', '/', 't', 'i', 'e', 'r', 'e', 'd', '-', 'v', '1', '.',
    'j', 's', 'o', 'n']

def path : Key → Text
  | .object digest =>
      objectsDir ++ (hexEncode digest.bytes).take 2 ++ '/' :: hexEncode digest.bytes
  | .summary run shards kind index =>
      summariesDir ++ hexEncode run.bytes ++ '/' :: hexEncode (be32 shards) ++
        '/' :: kind.tag :: hexEncode (be32 index)
  | .head chainId => chainsDir ++ Nat.toDigits 10 chainId.toNat ++ headFile

def immutable : Key → Bool
  | .head _ => false
  | _ => true

/-- Distinct keys have distinct paths, so the structured keys lose nothing
against the textual ones. -/
theorem path_injective : Function.Injective path := by
  intro left right same
  cases left with
  | object digest =>
      cases right with
      | object digest' =>
          simp only [path] at same
          have heads : (objectsDir ++ (hexEncode digest.bytes).take 2).length =
              (objectsDir ++ (hexEncode digest'.bytes).take 2).length := by
            simp [hexEncode_length, digest.width, digest'.width]
          have tails := (List.append_inj same heads).2
          rw [Fixed.bytes_injective (hexEncode_injective (List.cons.inj tails).2)]
      | summary run shards kind index => simp [path, objectsDir, summariesDir] at same
      | head chainId => simp [path, objectsDir, chainsDir] at same
  | summary run shards kind index =>
      cases right with
      | object digest => simp [path, objectsDir, summariesDir] at same
      | summary run' shards' kind' index' =>
          simp only [path, List.append_assoc, List.cons_append] at same
          have rest := List.append_cancel_left same
          have split := List.append_inj rest (by
            simp [hexEncode_length, run.width, run'.width])
          have runs := Fixed.bytes_injective (hexEncode_injective split.1)
          have split' := List.append_inj (List.cons.inj split.2).2 (by simp [hexEncode_length])
          have counts := be32_injective (hexEncode_injective split'.1)
          have tail := List.cons.inj (List.cons.inj split'.2).2
          have indexes := be32_injective (hexEncode_injective tail.2)
          have kinds : kind = kind' := by
            have tags := tail.1
            cases kind <;> cases kind' <;> simp_all [ShardKind.tag]
          rw [runs, counts, indexes, kinds]
      | head chainId => simp [path, summariesDir, chainsDir] at same
  | head chainId =>
      cases right with
      | object digest => simp [path, objectsDir, chainsDir] at same
      | summary run shards kind index => simp [path, summariesDir, chainsDir] at same
      | head chainId' =>
          simp only [path, List.append_assoc] at same
          have digits := List.append_cancel_right (List.append_cancel_left same)
          have values := congrArg (fun text => Nat.ofDigitChars 10 text 0) digits
          simp only [Nat.ofDigitChars_ten_toDigits] at values
          rw [UInt64.toNat_inj.mp values]

theorem head_paths_differ : path (.head 1) ≠ path (.head 2) := by
  intro same
  cases path_injective same

end Key

end Fossil

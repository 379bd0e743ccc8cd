import Fossil.Quantities

/-! The public gateway to content-addressed objects.

A request names an object by the text of its key, any byte of which may arrive
as a percent escape. `decodeCasKey` undoes the escapes and then checks the key
segment by segment. -/

namespace Fossil

/-! UTF-8, by the library's own coder. -/

/-- `str::as_bytes` -/
def asBytes (text : Text) : Bytes := text.flatMap String.utf8EncodeChar

/-- `str::from_utf8` and `String::from_utf8` -/
def fromUtf8 (bytes : Bytes) : Option Text :=
  (ByteArray.utf8Decode? bytes.toByteArray).map Array.toList

theorem fromUtf8_asBytes (text : Text) : fromUtf8 (asBytes text) = some text := by
  have decoded : ByteArray.utf8Decode? (asBytes text).toByteArray = some text.toArray :=
    List.utf8Decode?_utf8Encode
  unfold fromUtf8
  rw [decoded]
  rfl

/-- A character of one byte. -/
def asciiByte (c : Char) : UInt8 := c.val.toUInt8

theorem asBytes_cons {c : Char} (ascii : c.utf8Size = 1) (rest : Text) :
    asBytes (c :: rest) = asciiByte c :: asBytes rest := by
  show String.utf8EncodeChar c ++ asBytes rest = _
  rw [String.utf8EncodeChar_eq_singleton ascii]
  rfl

/-! The key of a request. -/

def byteLoop : Text → Nat → Option UInt8
  | [], value => some (UInt8.ofNat value)
  | c :: rest, value => do
      let digit ← hexValue c
      if value * 16 + digit < 2 ^ 8 then byteLoop rest (value * 16 + digit) else none

/-- `u8::from_str_radix(text, 16)`, which takes one leading plus sign. -/
def byteFromStrRadix16 : Text → Option UInt8
  | [] => none
  | ['+'] => none
  | '+' :: digits => byteLoop digits 0
  | digits => byteLoop digits 0

/-- `bytes.get(from..to)` -/
def slice (bytes : Bytes) (start stop : Nat) : Option Bytes :=
  if stop ≤ bytes.length then some ((bytes.drop start).take (stop - start)) else none

/-- The loop of the percent decoder, at position `i` with `out` written. -/
def unescapeLoop (bytes : Bytes) (i : Nat) (out : Bytes) : Option Bytes :=
  if inside : i < bytes.length then
    if bytes[i] = 0x25 then do
      let pair ← slice bytes (i + 1) (i + 3)
      let text ← fromUtf8 pair
      let value ← byteFromStrRadix16 text
      unescapeLoop bytes (i + 3) (out ++ [value])
    else unescapeLoop bytes (i + 1) (out ++ [bytes[i]])
  else some out
termination_by bytes.length - i

/-- A character is one of these exactly if its bytes are. -/
def isLowerHex (c : Char) : Bool := ('0' ≤ c ∧ c ≤ '9') ∨ ('a' ≤ c ∧ c ≤ 'f')

/-- `objects` -/
def objectsSegment : Text := ['o', 'b', 'j', 'e', 'c', 't', 's']

/-- `sha256` -/
def sha256Segment : Text := ['s', 'h', 'a', '2', '5', '6']

/-- The checks on the segments of a key. -/
def isCasKey : List Text → Bool
  | [space, algorithm, shard, digest] =>
      space = objectsSegment ∧ algorithm = sha256Segment ∧ utf8Length shard = 2 ∧
        utf8Length digest = 64 ∧ shard.all isLowerHex ∧ digest.all isLowerHex ∧ shard <+: digest
  | _ => false

def decodeCasKey (encoded : Text) : Option Text := do
  let out ← unescapeLoop (asBytes encoded) 0 []
  let key ← fromUtf8 out
  if isCasKey (key.splitOn '/') then some key else none

/-! What passes the checks. -/

theorem isLowerHex_hexDigit : ∀ n < 16, isLowerHex (hexDigit n) = true := by decide

theorem digits_of_isLowerHex {text : Text} (lower : text.all isLowerHex = true) : Digits text := by
  have ascii : ∀ n < 128, isLowerHex (Char.ofNat n) = true → ∃ d < 16, Char.ofNat n = hexDigit d := by
    decide +kernel
  intro c member
  have holds := List.all_eq_true.mp lower c member
  have last : c ≤ 'f' := by
    rcases of_decide_eq_true holds with digit | letter
    · exact Char.le_trans digit.2 (by decide)
    · exact letter.2
  have found := ascii c.toNat (Nat.lt_of_le_of_lt (Char.le_def.mp last) (by decide))
  rw [Char.ofNat_toNat] at found
  exact found holds

theorem Digits.isLowerHex {text : Text} (digits : Digits text) : text.all isLowerHex = true := by
  rw [List.all_eq_true]
  intro c member
  rcases digits c member with ⟨n, small, rfl⟩
  exact isLowerHex_hexDigit n small

/-- Digits in pairs are the encoding of some bytes. -/
theorem exists_hexEncode (count : Nat) {text : Text} (digits : Digits text)
    (even : text.length = 2 * count) : ∃ bytes, bytes.length = count ∧ text = hexEncode bytes := by
  induction count generalizing text with
  | zero =>
      refine ⟨[], rfl, ?_⟩
      rw [List.length_eq_zero_iff.mp even]
      rfl
  | succ count ih =>
      rcases text with _ | ⟨high, _ | ⟨low, rest⟩⟩
      · cases even
      · simp only [List.length_cons, List.length_nil] at even
        omega
      · rcases digits high List.mem_cons_self with ⟨h, hSmall, rfl⟩
        rcases digits low (List.mem_cons_of_mem _ List.mem_cons_self) with ⟨l, lSmall, rfl⟩
        have later : Digits rest := fun c member =>
          digits c (List.mem_cons_of_mem _ (List.mem_cons_of_mem _ member))
        rcases ih later (by simp only [List.length_cons] at even; omega) with ⟨bytes, width, rfl⟩
        refine ⟨UInt8.ofNat (h * 16 + l) :: bytes, by rw [List.length_cons, width], ?_⟩
        have byte : (UInt8.ofNat (h * 16 + l)).toNat = h * 16 + l := by
          rw [UInt8.toNat_ofNat']
          omega
        have left : (h * 16 + l) / 16 = h := by omega
        have right : (h * 16 + l) % 16 = l := by omega
        rw [hexEncode_cons, byte, left, right]

/-- The segments of an object's key. -/
def objectSegments (digest : Hash32) : List Text :=
  [objectsSegment, sha256Segment, (hexEncode digest.bytes).take 2, hexEncode digest.bytes]

theorem isCasKey_objectSegments (digest : Hash32) : isCasKey (objectSegments digest) = true := by
  have digits := hexEncode_digits digest.bytes
  have front : Digits ((hexEncode digest.bytes).take 2) := fun c member =>
    digits c (List.mem_of_mem_take member)
  have width : (hexEncode digest.bytes).length = 64 := by rw [hexEncode_length, digest.width]
  refine decide_eq_true ⟨rfl, rfl, ?_, ?_, front.isLowerHex, digits.isLowerHex, List.take_prefix _ _⟩
  · rw [front.utf8Length, List.length_take, width]
    rfl
  · rw [digits.utf8Length, width]

theorem isCasKey_iff (segments : List Text) :
    isCasKey segments = true ↔ ∃ digest, segments = objectSegments digest := by
  constructor
  · intro checked
    unfold isCasKey at checked
    split at checked
    · next space algorithm shard digest =>
        rcases of_decide_eq_true checked with
          ⟨rfl, rfl, shardLength, digestLength, shardLower, digestLower, front⟩
        have digits := digits_of_isLowerHex digestLower
        rw [digits.utf8Length] at digestLength
        rw [(digits_of_isLowerHex shardLower).utf8Length] at shardLength
        rcases exists_hexEncode 32 digits digestLength with ⟨bytes, width, rfl⟩
        have shape : shard = (hexEncode bytes).take 2 := by
          rw [List.prefix_iff_eq_take.mp front, shardLength]
        rw [shape]
        exact ⟨⟨bytes, width⟩, rfl⟩
    · cases checked
  · rintro ⟨digest, rfl⟩
    exact isCasKey_objectSegments digest

theorem path_object (digest : Hash32) :
    Key.path (.object digest) = List.intercalate ['/'] (objectSegments digest) := by
  simp [Key.path, Key.objectsDir, objectSegments, objectsSegment, sha256Segment, List.intercalate]

theorem splitOn_path (digest : Hash32) :
    (Key.path (.object digest)).splitOn '/' = objectSegments digest := by
  rw [path_object]
  have digits := hexEncode_digits digest.bytes
  have slash : ∀ n < 16, '/' ≠ hexDigit n := by decide
  apply List.splitOn_intercalate
  · intro segment member
    simp only [objectSegments, List.mem_cons, List.not_mem_nil, or_false] at member
    rcases member with rfl | rfl | rfl | rfl
    · decide
    · decide
    · intro inside
      rcases digits _ (List.mem_of_mem_take inside) with ⟨n, small, same⟩
      exact slash n small same
    · intro inside
      rcases digits _ inside with ⟨n, small, same⟩
      exact slash n small same
  · exact List.cons_ne_nil _ _

/-- A key that was let through is the key of an object. -/
theorem object_of_decodeCasKey {encoded key : Text} (decoded : decodeCasKey encoded = some key) :
    ∃ digest, key = Key.path (.object digest) := by
  unfold decodeCasKey at decoded
  rcases Option.bind_eq_some_iff.mp decoded with ⟨out, _, decoded⟩
  rcases Option.bind_eq_some_iff.mp decoded with ⟨read, _, decoded⟩
  split at decoded
  · next checked =>
      cases decoded
      rcases (isCasKey_iff _).mp checked with ⟨digest, segments⟩
      refine ⟨digest, ?_⟩
      rw [path_object, ← segments, List.intercalate_splitOn]
  · cases decoded

/-! Escaped spellings of a key. -/

/-- `Escaped encoded raw`: `encoded` is `raw` with some of its one-byte characters
written as a percent sign and two hexadecimal digits of either case. -/
inductive Escaped : Text → Text → Prop where
  | nil : Escaped [] []
  | plain (c : Char) {encoded raw : Text} : Escaped encoded raw → Escaped (c :: encoded) (c :: raw)
  | escape {high low c : Char} {h l : Nat} {encoded raw : Text} :
      hexValue high = some h → hexValue low = some l → c.toNat = h * 16 + l →
      Escaped encoded raw → Escaped ('%' :: high :: low :: encoded) (c :: raw)

theorem Escaped.refl (raw : Text) : Escaped raw raw := by
  induction raw with
  | nil => exact .nil
  | cons c rest ih => exact .plain c ih

/-- Text of one-byte characters other than the percent sign. -/
def Plain (text : Text) : Prop := ∀ c ∈ text, c.utf8Size = 1 ∧ c ≠ '%'

theorem hexValue_small {c : Char} {digit : Nat} (value : hexValue c = some digit) :
    digit < 16 ∧ c.utf8Size = 1 ∧ c ≠ '+' := by
  have ascii : ∀ n < 128, (hexValue (Char.ofNat n)).all (fun d =>
      decide (d < 16 ∧ (Char.ofNat n).utf8Size = 1 ∧ Char.ofNat n ≠ '+')) = true := by
    decide +kernel
  have checked := ascii c.toNat (hexValue_ascii value)
  rw [Char.ofNat_toNat, value] at checked
  exact of_decide_eq_true checked

theorem byteFromStrRadix16_pair {high low : Char} {h l : Nat} (highValue : hexValue high = some h)
    (lowValue : hexValue low = some l) :
    byteFromStrRadix16 [high, low] = some (UInt8.ofNat (h * 16 + l)) := by
  rcases hexValue_small highValue with ⟨hSmall, _, unsigned⟩
  have lSmall := (hexValue_small lowValue).1
  have first : 0 * 16 + h < 2 ^ 8 := by omega
  have second : (0 * 16 + h) * 16 + l < 2 ^ 8 := by omega
  have digits : byteFromStrRadix16 [high, low] = byteLoop [high, low] 0 := by
    unfold byteFromStrRadix16
    split
    · next same => cases same
    · next same => cases same
    · next same => exact absurd (List.cons.inj same).1 unsigned
    · rfl
  rw [digits, byteLoop, highValue, Option.bind_eq_bind, Option.bind_some, if_pos first, byteLoop,
    lowValue, Option.bind_eq_bind, Option.bind_some, if_pos second, byteLoop, Nat.zero_mul, Nat.zero_add]

theorem asciiByte_ne_percent {c : Char} (ascii : c.utf8Size = 1) (other : c ≠ '%') :
    asciiByte c ≠ 0x25 := by
  intro same
  have small : c.toNat ≤ 127 := UInt32.le_iff_toNat_le.mp (Char.utf8Size_eq_one_iff.mp ascii)
  have value : c.toNat % 2 ^ 8 = 37 := congrArg UInt8.toNat same
  apply other
  apply Char.toNat_inj.mp
  show c.toNat = 37
  omega

section

variable (before : Bytes) (out : Bytes)

theorem unescapeLoop_end : unescapeLoop before before.length out = some out := by
  rw [unescapeLoop, dif_neg (Nat.lt_irrefl _)]

theorem unescapeLoop_plain {byte : UInt8} (plain : byte ≠ 0x25) (rest : Bytes) :
    unescapeLoop (before ++ byte :: rest) before.length out =
      unescapeLoop (before ++ byte :: rest) (before.length + 1) (out ++ [byte]) := by
  have inside : before.length < (before ++ byte :: rest).length := by
    rw [List.length_append, List.length_cons]
    omega
  have current : (before ++ byte :: rest)[before.length] = byte := by simp
  conv => lhs; rw [unescapeLoop]
  rw [dif_pos inside, current, if_neg plain]

theorem unescapeLoop_escape {high low : Char} {h l : Nat} (highValue : hexValue high = some h)
    (lowValue : hexValue low = some l) (rest : Bytes) :
    unescapeLoop (before ++ 0x25 :: asciiByte high :: asciiByte low :: rest) before.length out =
      unescapeLoop (before ++ 0x25 :: asciiByte high :: asciiByte low :: rest) (before.length + 3)
        (out ++ [UInt8.ofNat (h * 16 + l)]) := by
  have pair : asBytes [high, low] = [asciiByte high, asciiByte low] := by
    rw [asBytes_cons (hexValue_small highValue).2.1, asBytes_cons (hexValue_small lowValue).2.1]
    rfl
  have cut : slice (before ++ 0x25 :: asciiByte high :: asciiByte low :: rest) (before.length + 1)
      (before.length + 3) = some (asBytes [high, low]) := by
    unfold slice
    have width : before.length + 3 - (before.length + 1) = 2 := by omega
    rw [if_pos (by simp), pair, List.drop_length_add_append, width]
    rfl
  have inside : before.length <
      (before ++ 0x25 :: asciiByte high :: asciiByte low :: rest).length := by simp
  have current : (before ++ 0x25 :: asciiByte high :: asciiByte low :: rest)[before.length] = 0x25 := by
    simp
  conv => lhs; rw [unescapeLoop]
  rw [dif_pos inside, if_pos current, cut, Option.bind_eq_bind, Option.bind_some, fromUtf8_asBytes,
    Option.bind_eq_bind, Option.bind_some, byteFromStrRadix16_pair highValue lowValue,
    Option.bind_eq_bind, Option.bind_some]

end

/-- The loop undoes the escapes, from any position and after any output. -/
theorem unescapeLoop_escaped {encoded raw : Text} (escaped : Escaped encoded raw) (plain : Plain raw)
    (before out : Bytes) :
    unescapeLoop (before ++ asBytes encoded) before.length out = some (out ++ asBytes raw) := by
  induction escaped generalizing before out with
  | nil =>
      show unescapeLoop (before ++ []) before.length out = some (out ++ [])
      rw [List.append_nil, List.append_nil, unescapeLoop_end]
  | @plain c encoded raw _ ih =>
      rcases plain c List.mem_cons_self with ⟨ascii, other⟩
      have byte := asciiByte_ne_percent ascii other
      have later := ih (fun c member => plain c (List.mem_cons_of_mem _ member))
        (before ++ [asciiByte c]) (out ++ [asciiByte c])
      rw [List.append_assoc, List.append_assoc, List.length_append] at later
      rw [asBytes_cons ascii, asBytes_cons ascii, unescapeLoop_plain before out byte]
      exact later
  | @escape high low c h l encoded raw highValue lowValue value _ ih =>
      have ascii := (plain c List.mem_cons_self).1
      have later := ih (fun c member => plain c (List.mem_cons_of_mem _ member))
        (before ++ [0x25, asciiByte high, asciiByte low]) (out ++ [asciiByte c])
      have byte : asciiByte c = UInt8.ofNat (h * 16 + l) := by
        rw [← value]
        rfl
      rw [List.append_assoc, List.append_assoc, List.length_append] at later
      rw [asBytes_cons (by decide : '%'.utf8Size = 1), asBytes_cons (hexValue_small highValue).2.1,
        asBytes_cons (hexValue_small lowValue).2.1, asBytes_cons ascii]
      have step := unescapeLoop_escape before out highValue lowValue (asBytes encoded)
      rw [← byte] at step
      exact step.trans later

theorem path_object_plain (digest : Hash32) : Plain (Key.path (.object digest)) := by
  have digits := hexEncode_digits digest.bytes
  have hex : ∀ n < 16, (hexDigit n).utf8Size = 1 ∧ hexDigit n ≠ '%' := by decide
  have dir : Key.objectsDir.all (fun c => decide (c.utf8Size = 1 ∧ c ≠ '%')) = true := by decide
  intro c member
  rcases List.mem_append.mp member with front | back
  · rcases List.mem_append.mp front with front | shard
    · exact of_decide_eq_true (List.all_eq_true.mp dir c front)
    · rcases digits c (List.mem_of_mem_take shard) with ⟨n, small, rfl⟩
      exact hex n small
  · rcases List.mem_cons.mp back with rfl | back
    · decide
    · rcases digits c back with ⟨n, small, rfl⟩
      exact hex n small

/-- Every escaped spelling of an object's key is read as that key. -/
theorem decodeCasKey_escaped {encoded : Text} {digest : Hash32}
    (escaped : Escaped encoded (Key.path (.object digest))) :
    decodeCasKey encoded = some (Key.path (.object digest)) := by
  have unescaped := unescapeLoop_escaped escaped (path_object_plain digest) [] []
  rw [List.nil_append, List.nil_append, List.length_nil] at unescaped
  unfold decodeCasKey
  rw [unescaped, Option.bind_eq_bind, Option.bind_some, fromUtf8_asBytes, Option.bind_eq_bind,
    Option.bind_some, splitOn_path, if_pos (isCasKey_objectSegments digest)]

/-- The gateway serves the keys of objects and no others, under every escaped spelling. -/
theorem decodeCasKey_objects :
    (∀ encoded key, decodeCasKey encoded = some key → ∃ digest, key = Key.path (.object digest)) ∧
      ∀ digest, decodeCasKey (Key.path (.object digest)) = some (Key.path (.object digest)) ∧
        ∀ encoded, Escaped encoded (Key.path (.object digest)) →
          decodeCasKey encoded = some (Key.path (.object digest)) := by
  refine ⟨fun _ _ => object_of_decodeCasKey, ?_⟩
  intro digest
  exact ⟨decodeCasKey_escaped (Escaped.refl _), fun _ => decodeCasKey_escaped⟩

/-- The key of the digest `abab…`, its first separator escaped. -/
def escapedKey : Text :=
  objectsSegment ++ '%' :: '2' :: 'F' :: (Key.path (.object ⟨List.replicate 32 0xab, rfl⟩)).drop 8

theorem escapedKey_escaped :
    Escaped escapedKey (Key.path (.object ⟨List.replicate 32 0xab, rfl⟩)) :=
  .plain 'o' (.plain 'b' (.plain 'j' (.plain 'e' (.plain 'c' (.plain 't' (.plain 's'
    (.escape (by decide : hexValue '2' = some 2) (by decide : hexValue 'F' = some 15) (by decide)
      (.refl _))))))))

theorem decodeCasKey_escapedKey :
    decodeCasKey escapedKey = some (Key.path (.object ⟨List.replicate 32 0xab, rfl⟩)) ∧
      ∃ digest, Key.path (.object ⟨List.replicate 32 0xab, rfl⟩) = Key.path (.object digest) := by
  have served := (decodeCasKey_objects.2 _).2 _ escapedKey_escaped
  exact ⟨served, decodeCasKey_objects.1 _ _ served⟩

end Fossil

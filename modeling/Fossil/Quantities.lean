import Fossil.Package
import Mathlib.Data.List.TakeWhile
import Mathlib.Data.Nat.Digits.Defs

/-! The spellings of numbers.

A quantity is read by hand-written checks and then by a library parser. Both
readers accept what the printers write. The 64-bit reader also accepts a plus
sign after the prefix, because the radix parser does. -/

namespace Fossil

/-! Lower-case digits. -/

theorem hexValue_ascii {c : Char} {digit : Nat} (value : hexValue c = some digit) : c.toNat < 128 := by
  have last : c ≤ 'f' := by
    unfold hexValue at value
    split at value
    · next digits => exact Char.le_trans digits.2 (by decide)
    · split at value
      · next letters => exact letters.2
      · split at value
        · next capitals => exact Char.le_trans capitals.2 (by decide)
        · cases value
  exact Nat.lt_of_le_of_lt (Char.le_def.mp last) (by decide)

/-- The lower-case digit characters are the ones the printers use. -/
theorem hexValue_eq_some_iff {c : Char} (lower : isAsciiUppercase c = false) (digit : Nat) :
    hexValue c = some digit ↔ digit < 16 ∧ c = hexDigit digit := by
  have ascii : ∀ n < 128, isAsciiUppercase (Char.ofNat n) = false →
      (hexValue (Char.ofNat n)).all (fun d => decide (d < 16 ∧ Char.ofNat n = hexDigit d)) = true := by
    decide +kernel
  constructor
  · intro value
    have checked := ascii c.toNat (hexValue_ascii value)
    rw [Char.ofNat_toNat, value] at checked
    exact of_decide_eq_true (checked lower)
  · rintro ⟨small, rfl⟩
    exact hexValue_hexDigit digit small

theorem hexDigit_lower : ∀ n < 16, isAsciiUppercase (hexDigit n) = false := by decide

theorem hexDigit_size : ∀ n < 16, (hexDigit n).utf8Size = 1 := by decide

theorem digitChar_eq_hexDigit : ∀ n < 16, Nat.digitChar n = hexDigit n := by decide

theorem hexDigit_ne_zero : ∀ n < 16, n ≠ 0 → hexDigit n ≠ '0' := by decide

theorem hexDigit_ne_plus : ∀ n < 16, hexDigit n ≠ '+' := by decide

/-- Text of lower-case hexadecimal digits. -/
def Digits (text : Text) : Prop := ∀ c ∈ text, ∃ n < 16, c = hexDigit n

theorem Digits.cons {n : Nat} {text : Text} (small : n < 16) (rest : Digits text) :
    Digits (hexDigit n :: text) := by
  intro c member
  rcases List.mem_cons.mp member with rfl | later
  · exact ⟨n, small, rfl⟩
  · exact rest c later

theorem Digits.append {left right : Text} (first : Digits left) (second : Digits right) :
    Digits (left ++ right) := by
  intro c member
  rcases List.mem_append.mp member with member | member
  · exact first c member
  · exact second c member

theorem Digits.lower {text : Text} (digits : Digits text) : text.any isAsciiUppercase = false := by
  rw [List.any_eq_false]
  intro c member
  rcases digits c member with ⟨n, small, rfl⟩
  rw [hexDigit_lower n small]
  decide

theorem Digits.utf8Length {text : Text} (digits : Digits text) : utf8Length text = text.length := by
  induction text with
  | nil => rfl
  | cons c rest ih =>
      rcases digits c List.mem_cons_self with ⟨n, small, rfl⟩
      have later := ih (fun c member => digits c (List.mem_cons_of_mem _ member))
      unfold Fossil.utf8Length at later ⊢
      rw [List.map_cons, List.sum_cons, later, hexDigit_size n small, List.length_cons, Nat.add_comm]

theorem hexEncode_digits (bytes : Bytes) : Digits (hexEncode bytes) := by
  intro c member
  rcases List.mem_flatMap.mp member with ⟨byte, _, inside⟩
  have bound := byte.toNat_lt
  rcases List.mem_cons.mp inside with rfl | inside
  · exact ⟨_, by omega, rfl⟩
  · rw [List.mem_singleton.mp inside]
    exact ⟨_, by omega, rfl⟩

theorem length_le_utf8Length (text : Text) : text.length ≤ utf8Length text := by
  induction text with
  | nil => exact Nat.zero_le _
  | cons c rest ih =>
      unfold utf8Length at ih ⊢
      have size := c.utf8Size_pos
      simp only [List.map_cons, List.sum_cons, List.length_cons]
      omega

/-! The checks both readers make before parsing. -/

/-- No leading zero except in the single digit zero. -/
def Trimmed (raw : Text) : Prop := raw ≠ [] ∧ (raw.head? = some '0' → raw = ['0'])

theorem trimmed_of_checks {raw : Text} (nonempty : raw ≠ [])
    (checked : ¬ (utf8Length raw > 1 ∧ raw.head? = some '0')) : Trimmed raw := by
  refine ⟨nonempty, ?_⟩
  intro zero
  cases raw with
  | nil => cases zero
  | cons c rest =>
      cases zero
      have long := length_le_utf8Length ('0' :: rest)
      have short : rest.length = 0 := by
        rw [List.length_cons] at long
        by_contra more
        exact checked ⟨by omega, rfl⟩
      rw [List.length_eq_zero_iff.mp short]

theorem Trimmed.checks {raw : Text} (trimmed : Trimmed raw) :
    ¬ (utf8Length raw > 1 ∧ raw.head? = some '0') := by
  rintro ⟨long, zero⟩
  rw [trimmed.2 zero] at long
  exact absurd long (by decide)

theorem stripHex_eq_ok {message : String} {value raw : Text} :
    stripHex message value = .ok raw ↔ value = '0' :: 'x' :: raw := by
  constructor
  · intro stripped
    unfold stripHex at stripped
    split at stripped
    · cases stripped
      rfl
    · cases stripped
  · rintro rfl
    rfl

/-! Sixty-four bits. -/

/-- The number a text of digits denotes, after the digits read so far. -/
def numeral (text : Text) (value : Nat) : Nat :=
  text.foldl (fun value c => value * 16 + hexDigits.idxOf c) value

theorem idxOf_hexDigit : ∀ n < 16, hexDigits.idxOf (hexDigit n) = n := by decide

theorem numeral_cons {n : Nat} (small : n < 16) (text : Text) (value : Nat) :
    numeral (hexDigit n :: text) value = numeral text (value * 16 + n) := by
  show numeral text (value * 16 + hexDigits.idxOf (hexDigit n)) = _
  rw [idxOf_hexDigit n small]

theorem le_numeral (text : Text) (value : Nat) : value ≤ numeral text value := by
  induction text generalizing value with
  | nil => exact Nat.le_refl value
  | cons c rest ih =>
      calc value ≤ value * 16 + hexDigits.idxOf c := by omega
        _ ≤ numeral rest (value * 16 + hexDigits.idxOf c) := ih _

/-- The radix parser reads exactly the digit texts whose number fits. -/
theorem radixLoop_eq_ok {text : Text} (lower : text.any isAsciiUppercase = false) {value : Nat}
    (bound : value < 2 ^ 64) {result : UInt64} :
    radixLoop text value = .ok result ↔
      Digits text ∧ numeral text value < 2 ^ 64 ∧ result = UInt64.ofNat (numeral text value) := by
  induction text generalizing value with
  | nil =>
      constructor
      · intro read
        cases read
        exact ⟨fun c member => absurd member List.not_mem_nil, bound, rfl⟩
      · rintro ⟨_, _, rfl⟩
        rfl
  | cons c rest ih =>
      rw [List.any_cons, Bool.or_eq_false_iff] at lower
      constructor
      · intro read
        unfold radixLoop at read
        split at read
        · cases read
        · next digit found =>
            rcases (hexValue_eq_some_iff lower.1 digit).mp found with ⟨small, rfl⟩
            split at read
            · next fits =>
                rcases (ih lower.2 fits).mp read with ⟨digits, below, same⟩
                rw [numeral_cons small]
                exact ⟨digits.cons small, below, same⟩
            · cases read
      · rintro ⟨digits, below, same⟩
        rcases digits c List.mem_cons_self with ⟨n, small, rfl⟩
        rw [numeral_cons small] at below same
        have fits : value * 16 + n < 2 ^ 64 := (le_numeral rest _).trans_lt below
        unfold radixLoop
        rw [hexValue_hexDigit n small]
        show (if _ then _ else _) = _
        rw [if_pos fits]
        exact (ih lower.2 fits).mpr
          ⟨fun c member => digits c (List.mem_cons_of_mem _ member), below, same⟩

theorem toDigits_append_hexDigit {value n : Nat} (positive : 0 < value) (small : n < 16) :
    Nat.toDigits 16 value ++ [hexDigit n] = Nat.toDigits 16 (value * 16 + n) := by
  rw [← digitChar_eq_hexDigit n small, ← Nat.toDigits_of_lt_base small,
    Nat.toDigits_append_toDigits (by decide) positive small, Nat.mul_comm]

/-- Digits after a non-zero start are the digits of the number they denote. -/
theorem toDigits_append_digits {text : Text} (digits : Digits text) {value : Nat} (positive : 0 < value) :
    Nat.toDigits 16 value ++ text = Nat.toDigits 16 (numeral text value) := by
  induction text generalizing value with
  | nil => exact List.append_nil _
  | cons c rest ih =>
      rcases digits c List.mem_cons_self with ⟨n, small, rfl⟩
      rw [numeral_cons small, ← ih (fun c member => digits c (List.mem_cons_of_mem _ member)) (by omega),
        ← toDigits_append_hexDigit positive small, List.append_assoc]
      rfl

theorem toDigits_numeral {text : Text} (digits : Digits text) (trimmed : Trimmed text) :
    Nat.toDigits 16 (numeral text 0) = text := by
  cases text with
  | nil => exact absurd rfl trimmed.1
  | cons c rest =>
      rcases digits c List.mem_cons_self with ⟨n, small, rfl⟩
      by_cases zero : n = 0
      · subst zero
        rw [trimmed.2 rfl]
        decide
      · have first : Nat.toDigits 16 n = [hexDigit n] := by
          rw [Nat.toDigits_of_lt_base small, digitChar_eq_hexDigit n small]
        rw [numeral_cons small, Nat.zero_mul, Nat.zero_add,
          ← toDigits_append_digits (fun c member => digits c (List.mem_cons_of_mem _ member))
            (Nat.pos_of_ne_zero zero), first]
        rfl

/-- What the printer writes: digits without a leading zero, of the number printed. -/
theorem toDigits_spec (n : Nat) :
    Digits (Nat.toDigits 16 n) ∧ Trimmed (Nat.toDigits 16 n) ∧
      ∀ rest, numeral (Nat.toDigits 16 n ++ rest) 0 = numeral rest n := by
  induction n using Nat.strongRecOn with
  | ind n ih =>
      by_cases short : n < 16
      · rw [Nat.toDigits_of_lt_base short, digitChar_eq_hexDigit n short]
        refine ⟨Digits.cons short (fun c member => absurd member List.not_mem_nil),
          ⟨List.cons_ne_nil _ _, ?_⟩, ?_⟩
        · intro zero
          rw [Option.some.inj zero]
        · intro rest
          rw [List.singleton_append, numeral_cons short, Nat.zero_mul, Nat.zero_add]
      · have last : n % 16 < 16 := Nat.mod_lt _ (by decide)
        have shape : Nat.toDigits 16 n = Nat.toDigits 16 (n / 16) ++ [hexDigit (n % 16)] := by
          rw [toDigits_append_hexDigit (by omega) last]
          congr 1
          omega
        rcases ih (n / 16) (by omega) with ⟨digits, trimmed, value⟩
        rw [shape]
        refine ⟨digits.append (Digits.cons last (fun c member => absurd member List.not_mem_nil)),
          ⟨List.append_ne_nil_of_right_ne_nil _ (List.cons_ne_nil _ _), ?_⟩, ?_⟩
        · intro zero
          -- A leading zero would make the quotient's digits a lone zero.
          rw [List.head?_append_of_ne_nil _ trimmed.1] at zero
          have lone := value []
          rw [trimmed.2 zero] at lone
          have quotient : n / 16 = 0 := lone.symm.trans (by decide)
          omega
        · intro rest
          rw [List.append_assoc, value, List.singleton_append, numeral_cons last]
          congr 1
          omega

/-- The texts the sign of the radix parser lets through: a plus sign after the
prefix, then digits of a number that fits. -/
def Signed (value : Text) : Prop :=
  ∃ digits, value = '0' :: 'x' :: '+' :: digits ∧ digits ≠ [] ∧ Digits digits ∧
    numeral digits 0 < 2 ^ 64

theorem fromStrRadix16_unsigned {raw : Text} (nonempty : raw ≠ []) (unsigned : raw.head? ≠ some '+') :
    fromStrRadix16 raw = radixLoop raw 0 := by
  unfold fromStrRadix16
  split
  · exact absurd rfl nonempty
  · exact absurd rfl unsigned
  · exact absurd rfl unsigned
  · rfl

theorem parseQuantity_eq_ok {value : Text} {n : UInt64} :
    parseQuantity value = .ok n ↔ ∃ raw, value = '0' :: 'x' :: raw ∧ Trimmed raw ∧
      raw.any isAsciiUppercase = false ∧ fromStrRadix16 raw = .ok n := by
  unfold parseQuantity
  rw [bind_eq_ok]
  constructor
  · rintro ⟨raw, stripped, read⟩
    rcases guard_eq_ok.mp read with ⟨checked, parsed⟩
    simp only [not_or] at checked
    refine ⟨raw, stripHex_eq_ok.mp stripped, trimmed_of_checks checked.1 checked.2.1,
      Bool.eq_false_iff.mpr checked.2.2, ?_⟩
    exact (context_eq_ok _ _ _).mp parsed
  · rintro ⟨raw, shape, trimmed, lower, parsed⟩
    refine ⟨raw, stripHex_eq_ok.mpr shape, guard_eq_ok.mpr ⟨?_, (context_eq_ok _ _ _).mpr parsed⟩⟩
    simp only [not_or]
    exact ⟨trimmed.1, trimmed.checks, Bool.eq_false_iff.mp lower⟩

theorem parseQuantity_quantity (n : UInt64) : parseQuantity (quantity n) = .ok n := by
  rcases toDigits_spec n.toNat with ⟨digits, trimmed, value⟩
  refine parseQuantity_eq_ok.mpr ⟨_, rfl, trimmed, digits.lower, ?_⟩
  have unsigned : (Nat.toDigits 16 n.toNat).head? ≠ some '+' := by
    intro plus
    rcases digits _ (List.mem_of_mem_head? plus) with ⟨d, small, same⟩
    exact hexDigit_ne_plus d small same.symm
  have total : numeral (Nat.toDigits 16 n.toNat) 0 = n.toNat := by
    have whole := value []
    rwa [List.append_nil] at whole
  rw [fromStrRadix16_unsigned trimmed.1 unsigned, radixLoop_eq_ok digits.lower (by decide), total]
  exact ⟨digits, n.toNat_lt, UInt64.ofNat_toNat.symm⟩

/-- Away from the signed texts the reader accepts what the printer writes and nothing else. -/
theorem parseQuantity_of_unsigned {value : Text} (unsigned : ¬ Signed value) {n : UInt64}
    (parsed : parseQuantity value = .ok n) : value = quantity n := by
  rcases parseQuantity_eq_ok.mp parsed with ⟨raw, rfl, trimmed, lower, read⟩
  have plain : raw.head? ≠ some '+' := by
    intro plus
    apply unsigned
    cases raw with
    | nil => cases plus
    | cons c digits =>
        cases plus
        rw [List.any_cons, Bool.or_eq_false_iff] at lower
        cases digits with
        | nil => cases read
        | cons c rest =>
            rcases (radixLoop_eq_ok lower.2 (by decide)).mp read with ⟨digits, below, _⟩
            exact ⟨c :: rest, rfl, List.cons_ne_nil _ _, digits, below⟩
  rw [fromStrRadix16_unsigned trimmed.1 plain, radixLoop_eq_ok lower (by decide)] at read
  rcases read with ⟨digits, below, rfl⟩
  unfold quantity
  rw [UInt64.toNat_ofNat_of_lt' below, toDigits_numeral digits trimmed]

/-- A signed text is read as a number and printed differently. -/
theorem parseQuantity_signed {value : Text} (signed : Signed value) :
    ∃ n, parseQuantity value = .ok n ∧ value ≠ quantity n := by
  rcases signed with ⟨digits, rfl, nonempty, lower, below⟩
  refine ⟨UInt64.ofNat (numeral digits 0), parseQuantity_eq_ok.mpr ⟨_, rfl, ?_, ?_, ?_⟩, ?_⟩
  · refine ⟨List.cons_ne_nil _ _, ?_⟩
    intro zero
    cases zero
  · rw [List.any_cons, lower.lower]
    decide
  · have read := (radixLoop_eq_ok lower.lower (by decide)).mpr ⟨lower, below, rfl⟩
    cases digits with
    | nil => exact absurd rfl nonempty
    | cons c rest => exact read
  · intro same
    have tail := List.cons.inj (List.cons.inj same).2
    have member : '+' ∈ Nat.toDigits 16 (UInt64.ofNat (numeral digits 0)).toNat := by
      rw [← tail.2]
      exact List.mem_cons_self
    rcases (toDigits_spec _).1 _ member with ⟨n, small, plus⟩
    exact hexDigit_ne_plus n small plus.symm

/-! Two hundred and fifty-six bits. -/

theorem hexDecode_eq_ok {text : Text} (lower : text.any isAsciiUppercase = false) {bytes : Bytes} :
    hexDecode text = .ok bytes ↔ text = hexEncode bytes := by
  constructor
  · intro decoded
    induction text using hexDecode.induct generalizing bytes with
    | case1 =>
        cases decoded
        rfl
    | case2 c => cases decoded
    | case3 high low rest h l lowValue highValue ih =>
        simp only [List.any_cons, Bool.or_eq_false_iff] at lower
        rw [hexDecode, highValue, lowValue] at decoded
        rcases bind_eq_ok.mp decoded with ⟨tail, tailDecoded, whole⟩
        cases whole
        rcases (hexValue_eq_some_iff lower.1 h).mp highValue with ⟨hSmall, rfl⟩
        rcases (hexValue_eq_some_iff lower.2.1 l).mp lowValue with ⟨lSmall, rfl⟩
        have byte : (UInt8.ofNat (h * 16 + l)).toNat = h * 16 + l := by
          rw [UInt8.toNat_ofNat']
          omega
        have left : (h * 16 + l) / 16 = h := by omega
        have right : (h * 16 + l) % 16 = l := by omega
        show _ = hexDigit _ :: hexDigit _ :: hexEncode tail
        rw [byte, left, right, ← ih lower.2.2 tailDecoded]
    | case4 high low rest invalid =>
        rw [hexDecode] at decoded
        split at decoded
        · next h l highValue lowValue => exact absurd lowValue (invalid h l highValue)
        · cases decoded
  · rintro rfl
    exact hexDecode_hexEncode bytes

theorem parseFixedRaw_eq_ok {n : Nat} {raw : Text} {value : Fixed n} :
    parseFixedRaw n raw = .ok value ↔ raw = hexEncode value.bytes := by
  unfold parseFixedRaw
  rw [guard_eq_ok]
  constructor
  · rintro ⟨checked, read⟩
    rw [not_or] at checked
    rcases bind_eq_ok.mp read with ⟨decoded, hex, fixed⟩
    have same : decoded = value.bytes := by
      unfold Fixed.ofBytes at fixed
      split at fixed
      · cases fixed
        rfl
      · cases fixed
    rw [← same]
    exact (hexDecode_eq_ok (Bool.eq_false_iff.mpr checked.2)).mp ((context_eq_ok _ _ _).mp hex)
  · rintro rfl
    have digits := hexEncode_digits value.bytes
    refine ⟨?_, ?_⟩
    · rw [not_or, digits.utf8Length, hexEncode_length, value.width, digits.lower]
      exact ⟨fun different => different (Nat.mul_comm 2 n), Bool.false_ne_true⟩
    · rw [hexDecode_hexEncode, context_ok, ok_bind, Fixed.ofBytes_bytes]

theorem parseFixed_eq_ok {n : Nat} {text : Text} {fixed : Fixed n} :
    parseFixed n text = .ok fixed ↔ text = '0' :: 'x' :: hexEncode fixed.bytes := by
  unfold parseFixed
  rw [bind_eq_ok]
  constructor
  · intro ⟨raw, stripped, parsed⟩
    rw [stripHex_eq_ok.mp stripped, parseFixedRaw_eq_ok.mp parsed]
  · intro shape
    exact ⟨_, stripHex_eq_ok.mpr shape, parseFixedRaw_eq_ok.mpr rfl⟩

theorem parseData_eq_ok {text : Text} {bytes : Bytes} :
    parseData text = .ok bytes ↔ text = '0' :: 'x' :: hexEncode bytes := by
  unfold parseData
  rw [bind_eq_ok]
  constructor
  · intro ⟨raw, stripped, parsed⟩
    obtain ⟨checked, parsed⟩ := guard_eq_ok.mp parsed
    rw [not_or] at checked
    rw [stripHex_eq_ok.mp stripped, ← (hexDecode_eq_ok (Bool.eq_false_iff.mpr checked.2)).mp
      ((context_eq_ok _ _ _).mp parsed)]
  · rintro rfl
    have digits := hexEncode_digits bytes
    refine ⟨_, stripHex_eq_ok.mpr rfl, guard_eq_ok.mpr ⟨?_, ?_⟩⟩
    · rw [not_or, digits.utf8Length, hexEncode_length, digits.lower]
      exact ⟨by omega, Bool.false_ne_true⟩
    · rw [hexDecode_hexEncode, context_ok]

theorem parseU256_eq_ok {value : Text} {b : Hash32} :
    parseU256 value = .ok b ↔ ∃ raw, value = '0' :: 'x' :: raw ∧ Trimmed raw ∧ utf8Length raw ≤ 64 ∧
      raw.any isAsciiUppercase = false ∧
      List.replicate (64 - raw.length) '0' ++ raw = hexEncode b.bytes := by
  unfold parseU256
  rw [bind_eq_ok]
  constructor
  · rintro ⟨raw, stripped, read⟩
    rcases guard_eq_ok.mp read with ⟨checked, parsed⟩
    simp only [not_or] at checked
    exact ⟨raw, stripHex_eq_ok.mp stripped, trimmed_of_checks checked.1 checked.2.2.1,
      Nat.le_of_not_lt checked.2.1, Bool.eq_false_iff.mpr checked.2.2.2, parseFixedRaw_eq_ok.mp parsed⟩
  · rintro ⟨raw, shape, trimmed, short, lower, padded⟩
    refine ⟨raw, stripHex_eq_ok.mpr shape, guard_eq_ok.mpr ⟨?_, parseFixedRaw_eq_ok.mpr padded⟩⟩
    simp only [not_or]
    exact ⟨trimmed.1, Nat.not_lt.mpr short, trimmed.checks, Bool.eq_false_iff.mp lower⟩

/-- Digits with their leading zeros removed, a lone zero when nothing is left. -/
def trimZeros (text : Text) : Text :=
  if text.dropWhile (· == '0') = [] then ['0'] else text.dropWhile (· == '0')

theorem trimZeros_trimmed (text : Text) : Trimmed (trimZeros text) := by
  unfold trimZeros
  split
  · exact ⟨List.cons_ne_nil _ _, fun _ => rfl⟩
  · next nonempty =>
      refine ⟨nonempty, ?_⟩
      intro zero
      have kept := List.head?_dropWhile_not (· == '0') text
      rw [zero] at kept
      cases kept

theorem trimZeros_digits {text : Text} (digits : Digits text) : Digits (trimZeros text) := by
  unfold trimZeros
  split
  · exact Digits.cons (by decide : 0 < 16) (fun c member => absurd member List.not_mem_nil)
  · intro c member
    exact digits c ((List.dropWhile_sublist _).subset member)

/-- Padding a trimmed text with zeros loses nothing. -/
theorem trimZeros_pad {raw : Text} (trimmed : Trimmed raw) (count : Nat) :
    trimZeros (List.replicate count '0' ++ raw) = raw := by
  have stripped : (List.replicate count '0' ++ raw).dropWhile (· == '0') = raw.dropWhile (· == '0') := by
    apply List.dropWhile_append_of_pos
    intro c member
    rw [List.eq_of_mem_replicate member]
    decide
  unfold trimZeros
  rw [stripped]
  cases raw with
  | nil => exact absurd rfl trimmed.1
  | cons c rest =>
      by_cases zero : c = '0'
      · subst zero
        rw [trimmed.2 rfl]
        decide
      · rw [List.dropWhile_cons_of_neg (by simpa using zero), if_neg (List.cons_ne_nil _ _)]

/-- A text is its trimmed form, padded to the width it had. -/
theorem pad_trimZeros {text : Text} (nonempty : text ≠ []) :
    List.replicate (text.length - (trimZeros text).length) '0' ++ trimZeros text = text := by
  unfold trimZeros
  split
  · next empty =>
      have zeros : text = List.replicate text.length '0' := by
        apply List.eq_replicate_iff.mpr
        refine ⟨rfl, ?_⟩
        intro c member
        exact beq_iff_eq.mp (List.dropWhile_eq_nil_iff.mp empty c member)
      have size : text.length - 1 + 1 = text.length := by
        have := List.length_pos_iff.mpr nonempty
        omega
      rw [List.length_singleton, ← List.replicate_succ', size]
      exact zeros.symm
  · have parts : text.takeWhile (· == '0') ++ text.dropWhile (· == '0') = text :=
      List.takeWhile_append_dropWhile
    have lengths := congrArg List.length parts
    rw [List.length_append] at lengths
    have front : text.takeWhile (· == '0') =
        List.replicate (text.length - (text.dropWhile (· == '0')).length) '0' := by
      apply List.eq_replicate_iff.mpr
      refine ⟨by omega, ?_⟩
      intro c member
      have zero : (c == '0') = true := List.mem_takeWhile_imp (p := (· == '0')) member
      exact beq_iff_eq.mp zero
    rw [← front]
    exact parts

theorem hexEncode_cons (byte : UInt8) (rest : Bytes) :
    hexEncode (byte :: rest) =
      hexDigit (byte.toNat / 16) :: hexDigit (byte.toNat % 16) :: hexEncode rest := rfl

theorem dropWhile_hexEncode (bytes : Bytes) :
    (hexEncode bytes).dropWhile (· == '0') =
      (hexEncode (bytes.dropWhile (· == 0))).dropWhile (· == '0') := by
  induction bytes with
  | nil => rfl
  | cons byte rest ih =>
      by_cases zero : byte = 0
      · subst zero
        exact ih
      · rw [List.dropWhile_cons_of_neg (by simpa using zero)]

/-- A byte other than zero has a digit other than zero. -/
theorem dropWhile_hexEncode_ne_nil {byte : UInt8} (nonzero : byte ≠ 0) (rest : Bytes) :
    (hexEncode (byte :: rest)).dropWhile (· == '0') ≠ [] := by
  intro empty
  have zeros := List.dropWhile_eq_nil_iff.mp empty
  rw [hexEncode_cons] at zeros
  have bound := byte.toNat_lt
  have high : byte.toNat / 16 = 0 := by
    by_contra positive
    exact hexDigit_ne_zero _ (by omega) positive (beq_iff_eq.mp (zeros _ List.mem_cons_self))
  have low : byte.toNat % 16 = 0 := by
    by_contra positive
    exact hexDigit_ne_zero _ (by omega) positive
      (beq_iff_eq.mp (zeros _ (List.mem_cons_of_mem _ List.mem_cons_self)))
  apply nonzero
  apply UInt8.toNat_inj.mp
  show byte.toNat = 0
  omega

theorem quantityU256_eq (b : Hash32) : quantityU256 b = '0' :: 'x' :: trimZeros (hexEncode b.bytes) := by
  unfold quantityU256 trimZeros
  rw [dropWhile_hexEncode]
  cases shape : b.bytes.dropWhile (· == 0) with
  | nil => rfl
  | cons byte rest =>
      have nonzero : byte ≠ 0 := by
        intro zero
        have kept := List.head?_dropWhile_not (· == 0) b.bytes
        rw [shape, zero] at kept
        cases kept
      rw [if_neg (dropWhile_hexEncode_ne_nil nonzero rest)]

theorem parseU256_iff (value : Text) (b : Hash32) :
    parseU256 value = .ok b ↔ value = quantityU256 b := by
  rw [parseU256_eq_ok, quantityU256_eq]
  have width : (hexEncode b.bytes).length = 64 := by rw [hexEncode_length, b.width]
  constructor
  · rintro ⟨raw, rfl, trimmed, _, _, padded⟩
    rw [← padded, trimZeros_pad trimmed]
  · rintro rfl
    have digits := trimZeros_digits (hexEncode_digits b.bytes)
    have nonempty : hexEncode b.bytes ≠ [] := by
      apply List.length_pos_iff.mp
      omega
    have padded := pad_trimZeros nonempty
    rw [width] at padded
    have whole := congrArg List.length padded
    rw [List.length_append, width] at whole
    refine ⟨_, rfl, trimZeros_trimmed _, ?_, digits.lower, padded⟩
    rw [digits.utf8Length]
    omega

/-! Both readers together. -/

/-- The readers accept a text exactly as the printed form of the number they return. -/
def Canonical (value : Text) : Prop :=
  (∀ n, parseQuantity value = .ok n ↔ value = quantity n) ∧
    ∀ b, parseU256 value = .ok b ↔ value = quantityU256 b

theorem canonical_iff (value : Text) : Canonical value ↔ ¬ Signed value := by
  constructor
  · intro canonical signed
    rcases parseQuantity_signed signed with ⟨n, parsed, different⟩
    exact different ((canonical.1 n).mp parsed)
  · intro unsigned
    refine ⟨?_, parseU256_iff value⟩
    intro n
    constructor
    · exact parseQuantity_of_unsigned unsigned
    · rintro rfl
      exact parseQuantity_quantity n

/-- One is accepted with a sign, and printed without. -/
theorem parseQuantity_plus_one :
    parseQuantity ['0', 'x', '+', '1'] = .ok 1 ∧ quantity 1 = ['0', 'x', '1'] := by
  decide +kernel

end Fossil

import Fossil.PackageRecords
import Fossil.Quantities

/-! Packages as they are written.

A producer writes one record to a line. Its lines have no line feed of their own
and are not blank, so the reader finds the same lines, and reads a package off
the records themselves. -/

namespace Fossil

/-! Text. -/

/-- No control characters. -/
def Printable (text : Text) : Prop := text.all (fun c => 32 ≤ c.toNat) = true

instance decidablePrintable (text : Text) : Decidable (Printable text) :=
  inferInstanceAs (Decidable (text.all (fun c => 32 ≤ c.toNat) = true))

@[simp] theorem printable_nil : Printable [] := rfl

@[simp] theorem printable_cons {c : Char} {text : Text} :
    Printable (c :: text) ↔ 32 ≤ c.toNat ∧ Printable text := by
  simp [Printable]

@[simp] theorem printable_append {left right : Text} :
    Printable (left ++ right) ↔ Printable left ∧ Printable right := by
  simp [Printable]

theorem hexDigit_printable : ∀ n < 16, 32 ≤ (hexDigit n).toNat := by decide

theorem Digits.printable {text : Text} (digits : Digits text) : Printable text := by
  refine List.all_eq_true.mpr ?_
  intro c member
  obtain ⟨n, small, rfl⟩ := digits c member
  simpa using hexDigit_printable n small

@[simp] theorem hexEncode_printable (bytes : Bytes) : Printable (hexEncode bytes) :=
  (hexEncode_digits bytes).printable

@[simp] theorem quantity_printable (n : UInt64) : Printable (quantity n) := by
  simp only [quantity, printable_cons]
  exact ⟨by decide, by decide, (toDigits_spec n.toNat).1.printable⟩

@[simp] theorem quantityU256_printable (value : Hash32) : Printable (quantityU256 value) := by
  rw [quantityU256_eq]
  simp only [printable_cons]
  exact ⟨by decide, by decide, (trimZeros_digits (hexEncode_digits value.bytes)).printable⟩

theorem jsonText_printable {text : Text} : Printable (jsonText text) ↔ Printable text := by
  simp [jsonText]

theorem jsonHash_printable (hash : Hash32) : Printable (jsonHash hash) := by
  simp [jsonHash, jsonText_printable]

/-! Lines. -/

/-- A line that holds one JSON object. -/
structure Framed (line : Text) : Prop where
  opening : line.head? = some '\x7b'
  printable : Printable line

theorem Framed.nonblank {line : Text} (framed : Framed line) : line.all isWhitespace = false := by
  obtain ⟨rest, rfl⟩ := List.head?_eq_some_iff.mp framed.opening
  rw [List.all_cons]
  have opening : isWhitespace '\x7b' = false := by decide
  rw [opening, Bool.false_and]

theorem intercalate_printable {parts : List Text} (each : ∀ part ∈ parts, Printable part) :
    Printable (List.intercalate [','] parts) := by
  induction parts with
  | nil => simp
  | cons part parts ih =>
      obtain ⟨first, rest⟩ := List.forall_mem_cons.mp each
      cases parts with
      | nil => simpa using first
      | cons next parts =>
          rw [List.intercalate_cons_cons]
          simp only [printable_append]
          exact ⟨⟨first, by decide⟩, ih rest⟩

theorem jsonObject_framed {fields : List (Text × Text)}
    (each : ∀ field ∈ fields, Printable field.1 ∧ Printable field.2) : Framed (jsonObject fields) := by
  refine ⟨rfl, ?_⟩
  simp only [jsonObject, printable_cons, printable_append, printable_nil, and_true]
  refine ⟨by decide, intercalate_printable ?_, by decide⟩
  intro part member
  obtain ⟨field, inside, rfl⟩ := List.mem_map.mp member
  obtain ⟨name, value⟩ := each field inside
  simp only [printable_append, printable_cons, jsonText_printable]
  exact ⟨name, by decide, value⟩

theorem jsonBool_printable (value : Bool) : Printable (jsonBool value) := by
  cases value <;> decide

/-- The texts of a record, as opposed to its digests. -/
def LineRecord.texts : LineRecord → List Text
  | .header schema chainId _ mode anchorNumber _ precedingNumber _ =>
      [schema, chainId, mode] ++ anchorNumber.toList ++ precedingNumber.toList
  | .block number _ _ _ timestamp => [number, timestamp]
  | .account number _ _ incarnation nonce balance _ =>
      [number, incarnation] ++ nonce.toList ++ balance.toList
  | .storage number _ incarnation _ _ => [number, incarnation]
  | .code _ bytes => [bytes]
  | .blockEnd number eventCount => [number, eventCount]
  | .trailer endNumber _ blockCount => [endNumber, blockCount]

def LineRecord.Plain (record : LineRecord) : Prop := ∀ text ∈ record.texts, Printable text

theorem LineRecord.Plain.fields {record : LineRecord} (plain : record.Plain) :
    ∀ field ∈ record.fields, Printable field.1 ∧ ∀ value ∈ field.2, Printable value := by
  cases record <;>
    simp_all [LineRecord.Plain, LineRecord.texts, LineRecord.fields, jsonText_printable,
      jsonHash_printable, jsonBool_printable]

theorem LineRecord.Plain.framed {record : LineRecord} (plain : record.Plain) : Framed record.json := by
  refine jsonObject_framed ?_
  intro field member
  obtain ⟨⟨name, value⟩, inside, same⟩ := List.mem_filterMap.mp member
  obtain ⟨found, present, rfl⟩ := Option.map_eq_some_iff.mp same
  obtain ⟨printable, values⟩ := plain.fields _ inside
  exact ⟨printable, values found present⟩

theorem splitLines_printable {line : Text} (printable : Printable line) (rest current : Text) :
    splitLines (line ++ rest) current = splitLines rest (line.reverse ++ current) := by
  induction line generalizing current with
  | nil => rfl
  | cons c line ih =>
      obtain ⟨high, printable⟩ := printable_cons.mp printable
      have feed : c ≠ '\n' := by
        rintro rfl
        exact absurd high (by decide)
      simp [splitLines, feed, ih printable]

theorem splitLines_feed {c : Char} (return_ : c ≠ '\r') (rest front : Text) :
    splitLines ('\n' :: rest) (c :: front) = (c :: front).reverse :: splitLines rest [] := by
  rw [splitLines]
  intro line same
  exact return_ (List.cons.inj same).1

/-- Lines that are each ended by a line feed are found again. -/
theorem splitLines_lines {lines : List Text} (each : ∀ line ∈ lines, Framed line) :
    splitLines (lines.flatMap (fun line => line ++ ['\n'])) [] = lines := by
  induction lines with
  | nil => rfl
  | cons line lines ih =>
      obtain ⟨first, rest⟩ := List.forall_mem_cons.mp each
      simp only [List.flatMap_cons, List.append_assoc]
      rw [splitLines_printable first.printable, List.append_nil]
      cases back : line.reverse with
      | nil =>
          have opening := first.opening
          rw [List.reverse_eq_nil_iff.mp back] at opening
          cases opening
      | cons c front =>
          have return_ : c ≠ '\r' := by
            rintro rfl
            have inside : '\r' ∈ line := List.mem_reverse.mp (by simp [back])
            exact absurd (List.all_eq_true.mp first.printable _ inside) (by decide)
          have whole : (c :: front).reverse = line := by rw [← back, List.reverse_reverse]
          rw [List.singleton_append, splitLines_feed return_, whole, ih rest]

/-! Packages. -/

/-- Lines, each ended by a line feed. -/
def joinLines (lines : List Text) : Text := lines.flatMap (fun line => line ++ ['\n'])

/-- Text as bytes, when it is all ASCII. -/
def asciiBytes (text : Text) : Bytes := text.map (fun char => UInt8.ofNat char.toNat)

/-- The UTF-8 check and the JSON reader on a package that was written: they find its
text, and a record in each of its lines. -/
structure ReadsBack (env : Externals) (lines : List Text) (records : List LineRecord) : Prop where
  text : env.utf8 (asciiBytes (joinLines lines)) = .ok (joinLines lines)
  records : List.Forall₂ (fun line record => env.lineRecord line = .ok record) lines records

section

variable {env : Externals} {lines : List Text} {records : List LineRecord}

theorem decodeLines_written (each : ∀ line ∈ lines, Framed line)
    (read : List.Forall₂ (fun line record => env.lineRecord line = .ok record) lines records) (index : Nat) :
    decodeLines env lines index = .ok records := by
  induction read generalizing index with
  | nil => rfl
  | cons one _ ih =>
      obtain ⟨first, rest⟩ := List.forall_mem_cons.mp each
      simp only [decodeLines, first.nonblank, Bool.false_eq_true, if_false, one, context_ok, ok_bind,
        ih rest]

/-- A package that was written is read as its records. -/
theorem readPackage_written (each : ∀ line ∈ lines, Framed line) (nonempty : lines ≠ [])
    (reads : ReadsBack env lines records) :
    readPackage env (asciiBytes (joinLines lines)) =
      assemblePackage env records (env.sha256 (asciiBytes (joinLines lines))) := by
  have plain : ¬ zstdMagic <+: asciiBytes (joinLines lines) := by
    cases lines with
    | nil => exact absurd rfl nonempty
    | cons line lines =>
        obtain ⟨rest, opened⟩ := List.head?_eq_some_iff.mp (each line (by simp)).opening
        simp only [joinLines, List.flatMap_cons, opened, asciiBytes, List.cons_append, List.map_cons,
          zstdMagic, List.cons_prefix_cons]
        intro ⟨same, _⟩
        exact absurd same (by decide)
  have found : splitLines (joinLines lines) [] = lines := splitLines_lines each
  simp only [readPackage, if_neg plain, ok_bind, parsePackage, reads.text, context_ok, found,
    decodeLines_written each reads.records]

end

/-! The groups of a package are where its block records are. -/

def LineRecord.isEvent : LineRecord → Bool
  | .account .. => true
  | .storage .. => true
  | .code .. => true
  | _ => false

theorem SpellsEvent.isEvent {env : Externals} {number : UInt64} {record : LineRecord} {event : PackageEvent}
    (spells : SpellsEvent env number record event) : record.isEvent := by
  cases spells <;> rfl

theorem append_cons_inj_of_split {α : Type} {test : α → Bool} {left right rest more : List α} {one two : α}
    (first : ∀ item ∈ left, test item) (second : ∀ item ∈ right, test item)
    (one_ : test one = false) (two_ : test two = false)
    (same : left ++ one :: rest = right ++ two :: more) : left = right ∧ one = two ∧ rest = more := by
  induction left generalizing right with
  | nil =>
      cases right with
      | nil => simpa using same
      | cons item right =>
          obtain ⟨rfl, _⟩ := List.cons.inj same
          simp [one_] at second
  | cons item left ih =>
      obtain ⟨passes, first⟩ := List.forall_mem_cons.mp first
      cases right with
      | nil =>
          obtain ⟨rfl, _⟩ := List.cons.inj same
          simp [two_] at passes
      | cons other right =>
          obtain ⟨rfl, tails⟩ := List.cons.inj same
          obtain ⟨rfl, rest⟩ := ih first (List.forall_mem_cons.mp second).2 tails
          exact ⟨rfl, rest⟩

/-! What a record spells is read off the record. -/

/-- What a text was parsed to, or a default. -/
def parsedOr {α : Type} (default : α) (result : Result α) : α := result.toOption.getD default

@[simp] theorem parsedOr_ok {α : Type} (default value : α) : parsedOr default (.ok value) = value := rfl

/-- The event of a record in the block with the given number. -/
def LineRecord.reading (number : UInt64) : LineRecord → PackageEvent
  | .account _ address existing incarnation nonce balance codeHash =>
      .account ⟨number, address, existing, parsedOr 0 (parseQuantity incarnation),
        (nonce.map (fun text => parsedOr 0 (parseQuantity text))).getD 0,
        (balance.map (fun text => parsedOr Fixed.zero (parseU256 text))).getD Fixed.zero,
        codeHash.getD Fixed.zero⟩
  | .storage _ address incarnation slot value =>
      .storage ⟨number, address, parsedOr 0 (parseQuantity incarnation), slot, value⟩
  | .code codeHash bytes => .code ⟨number, codeHash, parsedOr [] (parseData bytes)⟩
  | _ => .code ⟨number, Fixed.zero, []⟩

theorem SpellsEvent.reading {env : Externals} {number : UInt64} {record : LineRecord} {event : PackageEvent}
    (spells : SpellsEvent env number record event) : event = record.reading number := by
  cases spells with
  | @account text incarnation nonce balance codeHash event _ same counted fields =>
      unfold SpellsState at fields
      cases event
      split at fields
      · obtain ⟨⟨_, rfl, isNonce⟩, ⟨_, rfl, isBalance⟩, rfl⟩ := fields
        simp_all [LineRecord.reading]
      · obtain ⟨⟨rfl, rfl, rfl⟩, isNonce, isBalance, isCode⟩ := fields
        simp_all [LineRecord.reading]
  | @storage text incarnation event _ same counted =>
      cases event
      simp_all [LineRecord.reading]
  | @code text blob same parsed _ =>
      cases blob
      simp_all [LineRecord.reading]

theorem spells_readings {env : Externals} {number : UInt64} {records : List LineRecord}
    {events : List PackageEvent} (spells : List.Forall₂ (SpellsEvent env number) records events) :
    events = records.map (LineRecord.reading number) := by
  induction spells with
  | nil => rfl
  | cons one _ ih => rw [List.map_cons, ← ih, one.reading]

theorem SpellsBlock.reading {text time : Text} {hash parentHash stateRoot : Hash32} {block : BlockMeta}
    {number timestamp : UInt64} (spells : SpellsBlock (.block text hash parentHash stateRoot time) block)
    (isNumber : parseQuantity text = .ok number) (isTime : parseQuantity time = .ok timestamp) :
    block = ⟨number, hash, parentHash, stateRoot, timestamp⟩ := by
  obtain ⟨_, _, same, counted, timed⟩ := spells
  injection same with isText isHash isParent isRoot isStamp
  rw [← isText, isNumber] at counted
  rw [← isStamp, isTime] at timed
  cases block
  simp_all

theorem Mode.text_injective {first second : Mode} (same : first.text = second.text) : first = second := by
  cases first <;> cases second <;> first | rfl | exact absurd same (by decide)

/-- A package with the records of one block has one group. -/
theorem Spelled.single {env : Externals} {opening block closing trailer : LineRecord}
    {events : List LineRecord} {header : PackageHeader} {groups : List BlockGroup} {first last : BlockMeta}
    (each : ∀ record ∈ events, record.isEvent) (ended : closing.isEvent = false)
    (spelled : Spelled env (opening :: block :: (events ++ [closing, trailer])) header groups first last) :
    ∃ group, groups = [group] ∧ SpellsHeader opening header ∧
      GroupLines.Spells env ⟨block, events, closing⟩ group := by
  obtain ⟨header', lines, trailer', whole, isHeader, spells, _⟩ := spelled.lines
  obtain ⟨sameHeader, groupLines⟩ := List.cons.inj whole
  subst sameHeader
  cases spells with
  | nil => simp at groupLines
  | @cons line group lines groups one rest =>
      rw [List.flatMap_cons, GroupLines.records, List.cons_append, List.cons_append, List.append_assoc,
        List.append_assoc, List.singleton_append] at groupLines
      obtain ⟨sameBlock, body⟩ := List.cons.inj groupLines
      have inside : ∀ record ∈ line.events, record.isEvent := by
        intro record member
        obtain ⟨event, _, spelt⟩ := forall₂_exists_left one.events.flip member
        exact SpellsEvent.isEvent spelt
      have closed : line.closing.isEvent = false := by
        obtain ⟨_, _, same, _⟩ := one.closing
        rw [same]
        rfl
      obtain ⟨sameEvents, sameEnd, tail⟩ := append_cons_inj_of_split each inside ended closed body
      cases rest with
      | nil =>
          rw [sameBlock, sameEvents, sameEnd]
          exact ⟨group, rfl, isHeader, one⟩
      | cons next others =>
          have size := congrArg List.length tail
          simp [GroupLines.records] at size

end Fossil

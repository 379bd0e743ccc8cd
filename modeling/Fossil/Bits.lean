import Fossil.Bytes

/-! Bit arrays stored in bytes, least significant bit first.

Setting a bit never clears another one, which is all a membership filter needs
to be free of false negatives. -/

namespace Fossil

def setBit (bits : Bytes) (n : Nat) : Bytes :=
  bits.modify (n / 8) (fun byte => byte ||| (1 <<< UInt8.ofNat (n % 8)))

def testBit (bits : Bytes) (n : Nat) : Bool :=
  bits.getD (n / 8) 0 &&& (1 <<< UInt8.ofNat (n % 8)) != 0

@[simp] theorem setBit_length (bits : Bytes) (n : Nat) : (setBit bits n).length = bits.length := by
  simp [setBit]

private theorem mask_ne_zero : ∀ n < 8, (1 : UInt8) <<< UInt8.ofNat n ≠ 0 := by decide

theorem testBit_setBit_self (bits : Bytes) (n : Nat) (inside : n / 8 < bits.length) :
    testBit (setBit bits n) n = true := by
  have mask := mask_ne_zero (n % 8) (Nat.mod_lt _ (by decide))
  have absorb : ∀ byte mask : UInt8, (byte ||| mask) &&& mask = mask := by
    intro byte mask
    rw [UInt8.eq_iff_toBitVec_eq]
    apply BitVec.eq_of_getLsbD_eq
    intro i _
    simp only [UInt8.toBitVec_and, UInt8.toBitVec_or, BitVec.getLsbD_and, BitVec.getLsbD_or]
    cases byte.toBitVec.getLsbD i <;> cases mask.toBitVec.getLsbD i <;> rfl
  rw [testBit, setBit, List.getD_eq_getElem?_getD, List.getElem?_modify_eq,
    List.getElem?_eq_getElem inside, Option.map_eq_map, Option.map_some, Option.getD_some, absorb]
  simpa using mask

theorem testBit_setBit_mono (bits : Bytes) (n m : Nat) (set : testBit bits m = true) :
    testBit (setBit bits n) m = true := by
  have widen : ∀ byte extra mask : UInt8, byte &&& mask ≠ 0 → (byte ||| extra) &&& mask ≠ 0 := by
    intro byte extra mask nonzero cleared
    apply nonzero
    rw [UInt8.eq_iff_toBitVec_eq] at cleared ⊢
    apply BitVec.eq_of_getLsbD_eq
    intro i bound
    have bit := congrArg (fun v => BitVec.getLsbD v i) cleared
    simp only [UInt8.toBitVec_and, UInt8.toBitVec_or, BitVec.getLsbD_and, BitVec.getLsbD_or] at bit ⊢
    revert bit
    cases byte.toBitVec.getLsbD i <;> cases mask.toBitVec.getLsbD i <;> simp
  simp only [testBit, setBit, bne_iff_ne, List.getD_eq_getElem?_getD] at set ⊢
  by_cases same : n / 8 = m / 8
  · rw [same, List.getElem?_modify_eq]
    cases found : bits[m / 8]? with
    | none => simp [found] at set
    | some byte =>
        rw [found] at set
        exact widen byte _ _ set
  · rw [List.getElem?_modify_ne _ _ same]
    exact set

/-- Set every bit in a list of positions. -/
def setBits (bits : Bytes) (positions : List Nat) : Bytes := positions.foldl setBit bits

@[simp] theorem setBits_length (bits : Bytes) (positions : List Nat) :
    (setBits bits positions).length = bits.length := by
  induction positions generalizing bits with
  | nil => rfl
  | cons n rest ih => exact (ih (setBit bits n)).trans (setBit_length bits n)

theorem testBit_setBits_mono (bits : Bytes) (positions : List Nat) (m : Nat)
    (set : testBit bits m = true) : testBit (setBits bits positions) m = true := by
  induction positions generalizing bits with
  | nil => exact set
  | cons n rest ih => exact ih (setBit bits n) (testBit_setBit_mono bits n m set)

theorem testBit_setBits_of_mem (bits : Bytes) (positions : List Nat) (m : Nat)
    (member : m ∈ positions) (inside : m / 8 < bits.length) :
    testBit (setBits bits positions) m = true := by
  induction positions generalizing bits with
  | nil => cases member
  | cons n rest ih =>
      rcases List.mem_cons.mp member with rfl | later
      · exact testBit_setBits_mono _ rest m (testBit_setBit_self bits m inside)
      · exact ih (setBit bits n) later (by rw [setBit_length]; exact inside)

end Fossil

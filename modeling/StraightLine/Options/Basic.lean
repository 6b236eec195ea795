import StraightLine.Failure

/-!
# Options

What a compilation can be told: how many registers it may use, where the returned word goes, how large a
stack slot is and how the frame is aligned, which directive opens the listing, and whether words that
are too wide are moved to temporaries. The defaults are valid. Validation checks one option after the
other and refuses with the first fault.
-/

namespace StraightLine

structure Options where
  poolSize : UInt64 := 7
  returnRegister : String := "a0"
  slotSize : UInt32 := 4
  alignment : UInt32 := 4
  sectionDirective : String := ".text"
  legalize : Bool := true
deriving DecidableEq

/-- Whether a number is one of the powers of two below `2 ^ 32`. -/
def isPowerOfTwo (n : Nat) : Bool := (List.range 32).any fun k => 1 <<< k = n

namespace Options

/-- Refuse options that no run can work with. -/
def validate (o : Options) : Except OptionsFault Unit :=
  if o.poolSize.toNat < minPoolSize ∨ PoolReg.count < o.poolSize.toNat then
    .error (.poolSize o.poolSize.toNat)
  else if o.slotSize.toNat = 0 ∨ o.slotSize.toNat % 4 ≠ 0 then
    .error (.slotSize o.slotSize.toNat)
  else if !isPowerOfTwo o.alignment.toNat ∨ o.alignment.toNat % o.slotSize.toNat ≠ 0 then
    .error (.alignment o.slotSize.toNat o.alignment.toNat)
  else if o.returnRegister ∈ PoolReg.names then
    .error (.returnRegister o.returnRegister)
  else .ok ()

/-- Options are accepted exactly when the pool holds the operands of an instruction, slots are whole
words, the frame is aligned to a power of two that whole slots fill, and the returned word does not go
to a register of the pool. -/
theorem validate_eq_ok_iff {o : Options} :
    o.validate = .ok () ↔
      (3 ≤ o.poolSize.toNat ∧ o.poolSize.toNat ≤ 18) ∧
      (o.slotSize.toNat ≠ 0 ∧ o.slotSize.toNat % 4 = 0) ∧
      (isPowerOfTwo o.alignment.toNat = true ∧ o.alignment.toNat % o.slotSize.toNat = 0) ∧
      o.returnRegister ∉ PoolReg.names := by
  have hmin : minPoolSize = 3 := rfl
  have hcount : PoolReg.count = 18 := rfl
  simp only [validate, hmin, hcount]
  split
  · simp; omega
  · split
    · simp; omega
    · split
      · next halign =>
          simp only [Bool.not_eq_eq_eq_not, Bool.not_true] at halign
          rcases halign with h | h <;> simp [h]
      · next halign =>
          simp only [Bool.not_eq_eq_eq_not, Bool.not_true, not_or, Bool.not_eq_false,
            Decidable.not_not] at halign
          split
          · next hret => simp [hret]
          · next hret =>
              simp only [hret, not_false_eq_true, and_true, true_iff]
              exact ⟨by omega, by omega, halign.1, halign.2⟩

end Options

end StraightLine

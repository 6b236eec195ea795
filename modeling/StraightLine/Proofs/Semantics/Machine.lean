import StraightLine.Allocator.Basic
import StraightLine.Semantics.Machine

/-!
# Slots and frames of the machine

The word of a stack slot is the word of memory at its offset above the stack pointer. Offsets are
below `byteLimit`, so different offsets are different addresses although addresses wrap. An
instruction changes at most the register it writes, and a piece of code that never writes a register
leaves it as it was.
-/

namespace StraightLine

def Asm.dest? : Asm → Option Reg
  | .li rd _ | .mv rd _ | .addi rd _ _ | .arith _ rd _ _ | .lw rd _ _ => some rd
  | .sw _ _ _ => none

namespace Machine

variable {m : Machine} {r : PoolReg} {s : Reg} {offset o : Nat} {value : Int32}

def slot (m : Machine) (offset : Nat) : Int32 := m.mem (m.address .sp offset)

@[simp] theorem run_nil (m : Machine) : m.run [] = m := rfl

@[simp] theorem run_cons (m : Machine) (i : Asm) (code : List Asm) :
    m.run (i :: code) = (m.step i).run code := rfl

@[simp] theorem step_spill (m : Machine) (r : PoolReg) (offset : Nat) :
    m.step (Asm.spill r offset) = m.setMem (m.address .sp offset) (m.reg (.pool r)) := rfl

theorem address_injective (hoffset : offset < byteLimit) (ho : o < byteLimit)
    (h : m.address s offset = m.address s o) : offset = o := by
  have hword : Int32.ofNat offset = Int32.ofNat o := (Int32.add_right_inj _).1 h
  have hnat := congrArg (fun word : Int32 => word.toBitVec.toNat) hword
  simp only [Int32.toBitVec_ofNat', BitVec.toNat_ofNat] at hnat
  rw [byteLimit, UInt32.size] at hoffset ho
  omega

theorem slot_setMem_self (m : Machine) (offset : Nat) (value : Int32) :
    (m.setMem (m.address .sp offset) value).slot offset = value := by
  simp [slot, address]

theorem slot_setMem_of_ne (hoffset : offset < byteLimit) (ho : o < byteLimit) (hne : o ≠ offset) :
    (m.setMem (m.address .sp offset) value).slot o = m.slot o := by
  have haddress : m.address .sp o ≠ m.address .sp offset :=
    fun h => hne (address_injective ho hoffset h)
  simp only [slot, mem_setMem]
  exact if_neg haddress

theorem reg_step_of_ne {i : Asm} (h : i.dest? ≠ some s) : (m.step i).reg s = m.reg s := by
  cases i with
  | sw rs offset base => rfl
  | _ => exact if_neg fun heq => h (congrArg some heq.symm)

theorem reg_run_of_ne {code : List Asm} (h : ∀ i ∈ code, i.dest? ≠ some s) :
    (m.run code).reg s = m.reg s := by
  induction code generalizing m with
  | nil => rfl
  | cons i code ih =>
      rw [run_cons, ih fun j hj => h j (List.mem_cons_of_mem i hj),
        reg_step_of_ne (h i List.mem_cons_self)]

end Machine

end StraightLine

import StraightLine.Target.Listing

/-!
# What listings compute

A machine of 32-bit words: a word for every register, and a memory whose addresses are words too, so
that addresses wrap. A listing runs line by line, and its directives do nothing.
-/

namespace StraightLine

structure Machine where
  reg : Reg → Int32
  mem : Int32 → Int32

namespace Machine

def setReg (m : Machine) (r : Reg) (value : Int32) : Machine :=
  { m with reg := fun s => if s = r then value else m.reg s }

def setMem (m : Machine) (address value : Int32) : Machine :=
  { m with mem := fun a => if a = address then value else m.mem a }

/-- The address at some bytes above a base register. -/
def address (m : Machine) (base : Reg) (offset : Nat) : Int32 := m.reg base + Int32.ofNat offset

def step (m : Machine) : Asm → Machine
  | .li rd value => m.setReg rd value
  | .mv rd rs => m.setReg rd (m.reg rs)
  | .addi rd rs value => m.setReg rd (m.reg rs + value)
  | .arith op rd rs₁ rs₂ => m.setReg rd (op.apply (m.reg rs₁) (m.reg rs₂))
  | .lw rd offset base => m.setReg rd (m.mem (m.address base offset))
  | .sw rs offset base => m.setMem (m.address base offset) (m.reg rs)

def run (m : Machine) (instrs : List Asm) : Machine := instrs.foldl step m

@[simp] theorem reg_setReg (m : Machine) (r s : Reg) (value : Int32) :
    (m.setReg r value).reg s = if s = r then value else m.reg s := rfl

@[simp] theorem mem_setReg (m : Machine) (r : Reg) (value : Int32) : (m.setReg r value).mem = m.mem := rfl

@[simp] theorem reg_setMem (m : Machine) (address value : Int32) :
    (m.setMem address value).reg = m.reg := rfl

@[simp] theorem mem_setMem (m : Machine) (address value a : Int32) :
    (m.setMem address value).mem a = if a = address then value else m.mem a := rfl

theorem run_append (m : Machine) (front back : List Asm) :
    m.run (front ++ back) = (m.run front).run back := List.foldl_append

end Machine

def Listing.run (l : Listing) (m : Machine) : Machine := m.run l.instrs

end StraightLine

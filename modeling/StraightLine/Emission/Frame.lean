import StraightLine.Target.Listing

/-!
# The stack frame

A listing that uses the stack moves the stack pointer down behind its directive and up again at its end:
in front of the last line if that line returns, else behind it. The size of the frame is taken as a
32-bit word, so a large frame can look negative, and the one word without an opposite is a trap.
-/

namespace StraightLine.Listing

def withFrame (l : Listing) (size : Nat) (returns : Bool) : Except Trap Listing :=
  if size = 0 then .ok l
  else if Int32.ofNat size = Int32.minValue then .error .frameNegation
  else do
    let opened ← l.insert 1 (.plain (.adjustSp (-Int32.ofNat size)))
    let closing := Line.plain (.adjustSp (Int32.ofNat size))
    if returns then opened.insert (opened.size - 1) closing else return opened.push closing

end StraightLine.Listing

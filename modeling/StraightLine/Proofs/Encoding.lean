import Mathlib.Algebra.Group.Int.Defs
import StraightLine.Proofs.Emission.Frame
import StraightLine.Proofs.NormalForm

/-!
# Words that fit their instructions

An added word has twelve bits in an emitted instruction, with a sign, and so has the offset of a
load or a store. Normal form moves the words of a program that do not fit to temporaries. The words
that the stack brings in are not treated so: the moves of the stack pointer hold the size of the
frame, and the offsets go up to it. A listing therefore fits exactly when its frame has at most 2047
bytes. A frame close to `2 ^ 32` bytes is no exception, although its size looks like a short
negative word: its last slot is then far away.
-/

namespace StraightLine

/-- Whether the word or the offset that the instruction holds fits twelve bits. -/
def Asm.isEncodable : Asm → Bool
  | .addi _ _ value => isShort value.toInt
  | .lw _ offset _ | .sw _ offset _ => offset ≤ 2047
  | _ => true

/-! ### Short words -/

theorem isShort_iff {i : Int} : isShort i = true ↔ -2048 ≤ i ∧ i ≤ 2047 := by
  simp [isShort]

theorem isShort_toInt_neg {value : Int32} (h : isShort (-value.toInt) = true) :
    isShort (-value).toInt = true := by
  rw [isShort_iff] at h
  have hneg : (-value).toInt = -value.toInt := by
    rw [Int32.toInt_neg]
    exact Int.bmod_eq_of_le (by omega) (by omega)
  rw [isShort_iff, hneg]
  exact h

theorem isShort_ofNat {n : Nat} (h : n ≤ 2047) :
    isShort (Int32.ofNat n).toInt = true ∧ isShort (-Int32.ofNat n).toInt = true := by
  have htoInt : (Int32.ofNat n).toInt = n := Int32.toInt_ofNat_of_lt (by omega)
  refine ⟨?_, isShort_toInt_neg ?_⟩
  · rw [isShort_iff, htoInt]
    omega
  · rw [isShort_iff, htoInt]
    omega

theorem le_of_isShort_ofNat {n : Nat} (hlt : n < 2 ^ 32)
    (h : isShort (Int32.ofNat n).toInt = true) : n ≤ 2047 ∨ 2 ^ 32 - 2048 ≤ n := by
  rw [isShort_iff] at h
  by_cases hhalf : n < 2 ^ 31
  · rw [Int32.toInt_ofNat_of_lt hhalf] at h
    omega
  · have htoInt : (Int32.ofNat n).toInt = n - 2 ^ 32 := by
      rw [Int32.toInt_ofNat', Int.bmod_eq_iff (by decide),
        show (Int32.size : Int) = 2 ^ 32 from rfl]
      exact ⟨by omega, by omega, -1, by omega⟩
    rw [htoInt] at h
    omega

/-! ### The instructions of a listing -/

namespace Allocation

theorem Selected.isEncodable {ret : Reg} {i : Instr} {a b : Allocator} {asm : Asm}
    (hsel : Selected ret i a asm b)
    (hholds : ∀ op dst lhs value, i = .binary op dst lhs (.imm value) → op.holds value = true) :
    asm.isEncodable = true := by
  cases hsel with
  | retWord | retVar | movWord | movVar | withVar => rfl
  | @withWord _ _ _ _ op dst lhs value _ _ hop =>
      have hfits := hholds op dst (.var lhs) value rfl
      cases op with
      | add => exact hfits
      | sub => exact isShort_toInt_neg hfits
      | mul => exact absurd rfl hop

end Allocation

namespace Assembled

variable {o : Options} {q : Program} {l : Lowered} {lines framed : List Line}
  {b : Allocator} {j : Asm}

/-- What does not fit in a body is an offset of its frame. -/
theorem isEncodable_body (h : Assembled o q l lines framed b) (hvalid : o.validate = .ok ())
    (hholds : ∀ op dst lhs value, .binary op dst lhs (.imm value) ∈ q.instrs →
      op.holds value = true)
    (hj : j ∈ lines.filterMap Line.instr?) :
    j.isEncodable = true ∨ ∃ s offset, (j = .spill s offset ∨ j = .reload s offset) ∧
        offset < l.stats.frameSize := by
  obtain ⟨i, hi, _, _, hsel⟩ | ⟨s, offset, hcode, hoffset⟩ :=
    h.body.mem_instrs (Options.queued_allocator hvalid q) hj
  · exact Or.inl (hsel.isEncodable fun op dst lhs value heq => hholds op dst lhs value (heq ▸ hi))
  · exact Or.inr ⟨s, offset, hcode, h.offset_lt hvalid hoffset⟩

/-- A frame that is not small has a move or a store that does not fit. -/
theorem frameSize_le_of_isEncodable (h : Assembled o q l lines framed b)
    (hvalid : o.validate = .ok ()) (hall : ∀ j ∈ l.listing.instrs, j.isEncodable = true) :
    l.stats.frameSize ≤ 2047 := by
  rw [h.instrs_listing] at hall
  refine Nat.le_of_not_lt fun hlarge => ?_
  have hsize : l.stats.frameSize ≠ 0 := by omega
  have hclose : Asm.adjustSp (Int32.ofNat l.stats.frameSize) ∈ framed.filterMap Line.instr? :=
    h.frame.mem_instrs_iff.2 (Or.inr ⟨hsize, Or.inr rfl⟩)
  have hwide : 2 ^ 32 - 2048 ≤ l.stats.frameSize :=
    (le_of_isShort_ofNat h.frameSize_lt (hall _ hclose)).resolve_left (Nat.not_le_of_lt hlarge)
  -- The alignment divides what is missing to `2 ^ 32`, so it is short as well.
  have hpower : o.alignment.toNat ∣ 2 ^ 32 := by
    obtain ⟨k, hk, heq⟩ := exists_eq_two_pow (Options.validate_eq_ok_iff.1 hvalid).2.2.1.1
    exact heq ▸ Nat.pow_dvd_pow 2 (Nat.le_of_lt hk)
  have hdvd : o.alignment.toNat ∣ l.stats.frameSize :=
    h.frameSize_eq ▸ dvd_roundUp b.depth o.alignment.toNat
  have hlt : l.stats.frameSize < 2 ^ 32 := h.frameSize_lt
  have halign : o.alignment.toNat ≤ 2 ^ 32 - l.stats.frameSize :=
    Nat.le_of_dvd (by omega) (Nat.dvd_sub hpower hdvd)
  obtain ⟨s, offset, hspill, hlast⟩ := h.exists_spill_last hvalid hsize
  have hshort : offset ≤ 2047 :=
    of_decide_eq_true (hall _ (h.frame.mem_instrs_iff.2 (Or.inl hspill)))
  omega

theorem isEncodable_of_frameSize_le (h : Assembled o q l lines framed b)
    (hvalid : o.validate = .ok ())
    (hholds : ∀ op dst lhs value, .binary op dst lhs (.imm value) ∈ q.instrs →
      op.holds value = true)
    (hsmall : l.stats.frameSize ≤ 2047) : ∀ j ∈ l.listing.instrs, j.isEncodable = true := by
  intro j hj
  rw [h.instrs_listing, h.frame.mem_instrs_iff] at hj
  obtain hj | ⟨_, rfl | rfl⟩ := hj
  · obtain hfits | ⟨s, offset, rfl | rfl, hoffset⟩ := h.isEncodable_body hvalid hholds hj
    · exact hfits
    · exact decide_eq_true (by omega)
    · exact decide_eq_true (by omega)
  · exact (isShort_ofNat hsmall).2
  · exact (isShort_ofNat hsmall).1

end Assembled

namespace Options

/-- **A listing fits its instructions exactly when its frame is small.** The words that the program
adds always fit. -/
theorem encodable_iff_small_frame {o : Options} {p : Program} {c : Compilation}
    (hlegalize : o.legalize = true) (h : (o.compile p).outcome = .ok c) :
    (∀ rd rs value, .addi rd rs value ∈ c.listing.instrs → rd ≠ .sp → isShort value.toInt = true) ∧
    ((∀ i ∈ c.listing.instrs, i.isEncodable = true) ↔ c.stats.frameSize ≤ 2047) := by
  obtain ⟨hvalid, lines, framed, b, hassembled⟩ := Compilation.exists_assembled h
  have hholds : ∀ op dst lhs value, .binary op dst lhs (.imm value) ∈
      (p.normalForm o.legalize).instrs →
      op.holds value = true := by
    rw [hlegalize]
    exact fun op dst lhs value hmem => Program.normalForm_holds hmem
  refine ⟨fun rd rs value hmem hrd => ?_, ⟨fun hall => ?_, fun hsmall => ?_⟩⟩
  · rw [hassembled.instrs_listing, hassembled.frame.mem_instrs_iff] at hmem
    obtain hmem | ⟨_, heq | heq⟩ := hmem
    · obtain hfits | ⟨s, offset, heq | heq, _⟩ := hassembled.isEncodable_body hvalid hholds hmem
      · exact hfits
      · cases heq
      · cases heq
    · cases heq
      exact absurd rfl hrd
    · cases heq
      exact absurd rfl hrd
  · exact hassembled.frameSize_le_of_isEncodable hvalid hall
  · exact hassembled.isEncodable_of_frameSize_le hvalid hholds hsmall

/-- A frame of 1024 bytes and a word that needs a temporary fit. -/
theorem encodable_iff_small_frame_aligned :
    let o : Options := { poolSize := 3, alignment := 1024 }
    let p : Program := ⟨[.mov ⟨"a"⟩ (.imm 1), .mov ⟨"b"⟩ (.imm 2), .mov ⟨"c"⟩ (.imm 3),
      .binary .sub ⟨"d"⟩ (.var ⟨"c"⟩) (.imm 5000), .binary .add ⟨"a"⟩ (.var ⟨"a"⟩) (.var ⟨"b"⟩),
      .binary .mul ⟨"c"⟩ (.var ⟨"c"⟩) (.var ⟨"d"⟩), .binary .sub ⟨"a"⟩ (.var ⟨"a"⟩) (.var ⟨"c"⟩),
        .ret (.var ⟨"a"⟩)]⟩
    o.legalize = true ∧ ∃ c, (o.compile p).outcome = .ok c ∧ c.stats.frameSize = 1024 ∧
      ∀ i ∈ c.listing.instrs, i.isEncodable = true := by
  intro o p
  have hsize : (o.compile p).outcome.toOption.map (fun c => c.stats.frameSize) = some 1024 := by
    decide
  cases hcompile : (o.compile p).outcome with
  | error f =>
      rw [hcompile] at hsize
      cases hsize
  | ok c =>
      rw [hcompile] at hsize
      have hframe : c.stats.frameSize = 1024 := Option.some.inj hsize
      obtain ⟨_, hiff⟩ := encodable_iff_small_frame rfl hcompile
      exact ⟨rfl, c, rfl, hframe, hiff.2 (by omega)⟩

/-- A frame aligned to 4096 bytes moves the stack pointer further than an added word reaches. -/
theorem exists_listing_not_encodable :
    let o : Options := { poolSize := 3, alignment := 4096 }
    let p : Program := ⟨[.mov ⟨"a"⟩ (.imm 1), .mov ⟨"b"⟩ (.imm 2), .mov ⟨"c"⟩ (.imm 3),
      .mov ⟨"d"⟩ (.imm 4), .binary .add ⟨"a"⟩ (.var ⟨"a"⟩) (.var ⟨"b"⟩),
      .binary .add ⟨"c"⟩ (.var ⟨"c"⟩) (.var ⟨"d"⟩), .binary .add ⟨"a"⟩ (.var ⟨"a"⟩) (.var ⟨"c"⟩),
      .ret (.var ⟨"a"⟩)]⟩
    o.validate = .ok () ∧ o.legalize = true ∧ ∃ c, (o.compile p).outcome = .ok c ∧
      .addi .sp .sp (-4096) ∈ c.listing.instrs ∧
      (Asm.addi .sp .sp (-4096)).isEncodable = false := by
  intro o p
  have hmove : (o.compile p).outcome.toOption.map
      (fun c => decide (.addi .sp .sp (-4096) ∈ c.listing.instrs)) =
      some true := by decide
  cases hcompile : (o.compile p).outcome with
  | error f =>
      rw [hcompile] at hmove
      cases hmove
  | ok c =>
      rw [hcompile] at hmove
      exact ⟨by decide, rfl, c, rfl, of_decide_eq_true (Option.some.inj hmove), by decide⟩

end Options

end StraightLine

import StraightLine.Emission.Select
import StraightLine.Proofs.Allocator.Progress

/-!
# What choosing an instruction does

`Selected` lists the ways in which an instruction of a program becomes an emitted one, with the
chain of requests that it makes to the allocator; `run_select_eq_ok_iff` says that these are all. An
instruction without an emitted form is misplaced, and it is refused before the allocator is asked.

`Ready` is what the allocator keeps while a program is emitted: its tables are in order, its counts
track the reads that are still to come, and only variables of the program sit in registers. A
selection that starts ready ends ready for the instructions behind it.

`Asks` are the single requests of a selection, each with the state it meets: the operands that came
before it are seated, and it stays away from their registers. What every request keeps the whole
selection keeps, and an instruction that is not misplaced is refused only by one of its requests. A
ready allocator that has room on the stack for every variable of the program refuses nothing.
-/

namespace StraightLine

/-- Whether the instruction has a word where its emitted form needs a register. -/
def Instr.isMisplaced : Instr → Bool
  | .binary op _ lhs rhs => lhs.imm?.isSome || (op = .mul && rhs.imm?.isSome)
  | _ => false

def Instr.Within (i : Instr) (scope : List Var) : Prop := ∀ v ∈ i.occurrences, v ∈ scope

theorem Instr.Within.dst {i : Instr} {scope : List Var} {v : Var} (h : i.Within scope)
    (hv : i.dst? = some v) :
    v ∈ scope := h v (List.mem_append_left _ (by simp [hv]))

theorem Instr.Within.use {i : Instr} {scope : List Var} {v : Var} (h : i.Within scope)
    (hv : v ∈ i.uses) :
    v ∈ scope := h v (List.mem_append_right _ hv)

namespace Allocation

/-- The emitted instruction for an instruction, and the allocator before and after the choice. -/
inductive Selected (ret : Reg) : Instr → Allocator → Asm → Allocator → Prop
  | retWord {a : Allocator} {value : Int32} : Selected ret (.ret (.imm value)) a (.li ret value) a
  | retVar {a b c : Allocator} {v : Var} {rs : PoolReg} (hv : a.acquire v [] = (.ok rs, b))
      (hrel : b.consume v = (.ok (), c)) : Selected ret (.ret (.var v)) a (.mv ret (.pool rs)) c
  | movWord {a b : Allocator} {dst : Var} {value : Int32} {rd : PoolReg}
      (hdst : a.acquire dst [] = (.ok rd, b)) :
      Selected ret (.mov dst (.imm value)) a (.li (.pool rd) value) b
  | movVar {a b c d : Allocator} {dst src : Var} {rd rs : PoolReg}
      (hsrc : a.acquire src [] = (.ok rs, b))
      (hdst : b.acquire dst [rs] = (.ok rd, c)) (hrel : c.consume src = (.ok (), d)) :
      Selected ret (.mov dst (.var src)) a (.mv (.pool rd) (.pool rs)) d
  | withWord {a b c d : Allocator} {op : Operator} {dst lhs : Var} {value : Int32} {rd rl : PoolReg}
      (hop : op ≠ .mul) (hlhs : a.acquire lhs [] = (.ok rl, b))
      (hdst : b.acquire dst [rl] = (.ok rd, c)) (hrel : c.consume lhs = (.ok (), d)) :
      Selected ret (.binary op dst (.var lhs) (.imm value)) a
        (.addi (.pool rd) (.pool rl) (if op = .sub then -value else value)) d
  | withVar {a b c d e f : Allocator} {op : Operator} {dst lhs rhs : Var} {rd rl rr : PoolReg}
      (hlhs : a.acquire lhs [] = (.ok rl, b)) (hrhs : b.acquire rhs [rl] = (.ok rr, c))
      (hdst : c.acquire dst [rl, rr] = (.ok rd, d)) (hrelL : d.consume lhs = (.ok (), e))
      (hrelR : e.consume rhs = (.ok (), f)) :
      Selected ret (.binary op dst (.var lhs) (.var rhs)) a
        (.arith op (.pool rd) (.pool rl) (.pool rr)) f

theorem run_bind_eq_ok_iff {α β : Type} {x : Allocation α} {f : α → Allocation β}
    {a b : Allocator} {y : β} :
    (x >>= f).run a = (.ok y, b) ↔ ∃ z c, x.run a = (.ok z, c) ∧ (f z).run c = (.ok y, b) := by
  rw [run_bind]
  constructor
  · intro h
    rcases hx : x.run a with ⟨_ | z, c⟩
    · rw [hx] at h
      cases h
    · rw [hx] at h
      exact ⟨z, c, rfl, h⟩
  · intro ⟨z, c, hx, hf⟩
    rw [hx]
    exact hf

theorem run_bind_eq_error_iff {α β : Type} {x : Allocation α} {g : α → Allocation β}
    {a b : Allocator} {f : Failure} :
    (x >>= g).run a = (.error f, b) ↔
      x.run a = (.error f, b) ∨ ∃ z c, x.run a = (.ok z, c) ∧ (g z).run c = (.error f, b) := by
  rw [run_bind]
  constructor
  · intro h
    rcases hx : x.run a with ⟨_ | z, c⟩
    · rw [hx] at h
      cases h
      exact Or.inl rfl
    · rw [hx] at h
      exact Or.inr ⟨z, c, rfl, h⟩
  · rintro (hx | ⟨z, c, hx, hg⟩)
    · rw [hx]
    · rw [hx]
      exact hg

theorem run_pure_ne_error {α : Type} {x : α} {a b : Allocator} {f : Failure} :
    (pure x : Allocation α).run a ≠ (.error f, b) := nofun

theorem run_pure_eq_ok_iff {α : Type} {x y : α} {a b : Allocator} :
    (pure x : Allocation α).run a = (.ok y, b) ↔ x = y ∧ a = b := by
  constructor
  · intro h
    cases h
    exact ⟨rfl, rfl⟩
  · intro ⟨hx, ha⟩
    rw [hx, ha]
    rfl

variable {ret : Reg} {index : Nat} {i : Instr} {a b : Allocator} {asm : Asm} {v : Var}

theorem selected_of_run_select (h : (select ret index i).run a = (.ok asm, b)) :
    Selected ret i a asm b := by
  obtain ⟨dst, src | value⟩ | ⟨op, dst, lhs | x, rhs | value⟩ | ⟨v | value⟩ := i
  · simp only [select, run_bind_eq_ok_iff, run_pure_eq_ok_iff, run_claim, run_release] at h
    obtain ⟨rs, b, hsrc, rd, c, hdst, _, d, hrel, rfl, rfl⟩ := h
    exact .movVar hsrc hdst hrel
  · simp only [select, run_bind_eq_ok_iff, run_pure_eq_ok_iff, run_claim] at h
    obtain ⟨rd, b, hdst, rfl, rfl⟩ := h
    exact .movWord hdst
  · simp only [select, run_bind_eq_ok_iff, run_pure_eq_ok_iff, run_claim, run_release] at h
    obtain ⟨rl, b, hlhs, rr, c, hrhs, rd, d, hdst, _, e, hrelL, _, f, hrelR, rfl, rfl⟩ := h
    exact .withVar hlhs hrhs hdst hrelL hrelR
  · cases op with
    | mul => cases h
    | add | sub =>
        simp only [select, run_bind_eq_ok_iff, run_pure_eq_ok_iff, run_claim, run_release] at h
        obtain ⟨rl, b, hlhs, rd, c, hdst, _, d, hrel, rfl, rfl⟩ := h
        exact .withWord (by simp) hlhs hdst hrel
  · cases h
  · cases h
  · simp only [select, run_bind_eq_ok_iff, run_pure_eq_ok_iff, run_claim, run_release] at h
    obtain ⟨rs, b, hv, _, c, hrel, rfl, rfl⟩ := h
    exact .retVar hv hrel
  · simp only [select, run_pure_eq_ok_iff] at h
    obtain ⟨rfl, rfl⟩ := h
    exact .retWord

theorem run_select_of_selected (h : Selected ret i a asm b) (index : Nat) :
    (select ret index i).run a = (.ok asm, b) := by
  cases h with
  | retWord => rfl
  | retVar hv hrel =>
      simp only [select, run_bind_eq_ok_iff, run_pure_eq_ok_iff, run_claim, run_release]
      exact ⟨_, _, hv, _, _, hrel, rfl, rfl⟩
  | movWord hdst =>
      simp only [select, run_bind_eq_ok_iff, run_pure_eq_ok_iff, run_claim]
      exact ⟨_, _, hdst, rfl, rfl⟩
  | movVar hsrc hdst hrel =>
      simp only [select, run_bind_eq_ok_iff, run_pure_eq_ok_iff, run_claim, run_release]
      exact ⟨_, _, hsrc, _, _, hdst, _, _, hrel, rfl, rfl⟩
  | @withWord _ _ _ _ op _ _ _ _ _ hop hlhs hdst hrel =>
      cases op with
      | mul => exact absurd rfl hop
      | add | sub =>
          simp only [select, run_bind_eq_ok_iff, run_pure_eq_ok_iff, run_claim, run_release]
          exact ⟨_, _, hlhs, _, _, hdst, _, _, hrel, rfl, rfl⟩
  | withVar hlhs hrhs hdst hrelL hrelR =>
      simp only [select, run_bind_eq_ok_iff, run_pure_eq_ok_iff, run_claim, run_release]
      exact ⟨_, _, hlhs, _, _, hrhs, _, _, hdst, _, _, hrelL, _, _, hrelR, rfl, rfl⟩

theorem run_select_eq_ok_iff : (select ret index i).run a = (.ok asm, b) ↔ Selected ret i a asm b :=
  ⟨selected_of_run_select, fun h => run_select_of_selected h index⟩

theorem run_select_of_misplaced (h : i.isMisplaced = true) (ret : Reg) (index : Nat)
    (a : Allocator) :
    ∃ cause, (select ret index i).run a = (.error (.reported (.malformed index cause)), a) := by
  obtain ⟨dst, src | value⟩ | ⟨op, dst, lhs | x, rhs | value⟩ | ⟨v | value⟩ := i
  · cases h
  · cases h
  · simp [Instr.isMisplaced, Operand.imm?] at h
  · cases op with
    | mul => exact ⟨_, rfl⟩
    | add | sub => cases h
  · exact ⟨_, rfl⟩
  · exact ⟨_, rfl⟩
  · cases h
  · cases h

end Allocation

namespace Allocator

variable {a b c : Allocator} {scope reads : List Var} {v : Var} {r : PoolReg}
  {excluded : List PoolReg} {f : Failure}

/-! ### The layout of pool and stack -/

def SameLayout (a b : Allocator) : Prop :=
  b.poolSize = a.poolSize ∧ b.slotSize = a.slotSize ∧ b.alignment = a.alignment

theorem SameLayout.refl (a : Allocator) : SameLayout a a := ⟨rfl, rfl, rfl⟩

theorem SameLayout.trans (h : SameLayout a b) (h' : SameLayout b c) : SameLayout a c :=
  ⟨h'.1.trans h.1, h'.2.1.trans h.2.1, h'.2.2.trans h.2.2⟩

theorem sameLayout_acquire (h : a.acquire v excluded = (.ok r, b)) : SameLayout a b := by
  obtain ⟨grant, _, _, rfl⟩ := acquire_eq_ok_iff.1 h
  exact ⟨poolSize_settle a v grant, slotSize_settle a v grant, alignment_settle a v grant⟩

theorem sameLayout_consume (h : a.consume v = (.ok (), b)) : SameLayout a b := by
  obtain ⟨pending, _, rfl⟩ := consume_eq_ok_iff.1 h
  exact ⟨rfl, rfl, rfl⟩

/-- A pool that holds the registers of an instruction, and a stack that can hold every variable of a
scope. -/
def Roomy (a : Allocator) (scope : List Var) : Prop :=
  3 ≤ a.poolSize ∧ a.slotSize * scope.length < byteLimit

theorem Roomy.of_sameLayout (h : a.Roomy scope) (hab : SameLayout a b) : b.Roomy scope := by
  rw [Roomy, hab.1, hab.2.1]
  exact h

/-! ### Allocators that are ready for the reads to come -/

structure Ready (a : Allocator) (scope reads : List Var) : Prop where
  pooled : a.Pooled
  stacked : a.Stacked
  tracks : a.pending.Tracks scope reads
  mem_scope : ∀ {v r}, a.register? v = some r → v ∈ scope

theorem Ready.knows (h : a.Ready scope reads) (hv : a.register? v = some r) : a.pending.Knows v :=
  h.tracks.knows_iff.2 (h.mem_scope hv)

theorem Ready.acquire (h : a.Ready scope reads) (hv : v ∈ scope)
    (hacq : a.acquire v excluded = (.ok r, b)) : b.Ready scope reads := by
  refine ⟨h.pooled.acquire hacq, h.stacked.acquire hacq, ?_, fun {w s} hw => ?_⟩
  · rw [pending_acquire hacq]
    exact h.tracks
  · rw [register?_acquire hacq] at hw
    split at hw
    · next heq => exact heq ▸ hv
    · split at hw
      · cases hw
      · exact h.mem_scope hw

theorem Ready.consume (h : a.Ready scope (v :: reads)) (hrel : a.consume v = (.ok (), b)) :
    b.Ready scope reads := by
  have hpooled := h.pooled.consume v
  have hstacked := h.stacked.consume v
  rw [hrel] at hpooled hstacked
  obtain ⟨pending, hpending, rfl⟩ := consume_eq_ok_iff.1 hrel
  exact ⟨hpooled, hstacked, h.tracks.consume hpending, h.mem_scope⟩

theorem Ready.drain (h : a.Ready scope reads) : a.drain.2.Ready scope reads :=
  ⟨h.pooled.drain, h.stacked.drain, h.tracks, h.mem_scope⟩

/-- With three registers a request fails only when the stack cannot hold every variable of the
scope. -/
theorem Ready.acquire_eq_error (h : a.Ready scope reads) (hpool : 3 ≤ a.poolSize)
    (hlen : excluded.length < 3) (hacq : a.acquire v excluded = (.error f, b)) :
    f = .trapped .depthOverflow ∧ ¬ a.Roomy scope := by
  obtain ⟨hcause, w, hw, hslot, hlimit⟩ :=
    acquire_eq_overflow h.pooled h.stacked h.knows (Nat.lt_of_lt_of_le hlen hpool) hacq
  have hgrown := h.stacked.depth_add_le (fun ho => h.tracks.knows_iff.1 (h.stacked.knows ho))
    (h.tracks.knows_iff.1 hw) hslot
  exact ⟨hcause, fun hroomy => absurd hroomy.2 (Nat.not_lt.2 (Nat.le_trans hlimit hgrown))⟩

theorem Ready.consume_ne_error (h : a.Ready scope (v :: reads)) (hv : v ∈ scope) :
    a.consume v ≠ (.error f, b) := by
  intro herror
  obtain ⟨pending, hpending⟩ :=
    PendingReads.exists_consume_of_live (h.tracks.live hv List.mem_cons_self)
  rw [consume_eq_ok_iff.2 ⟨pending, hpending, rfl⟩] at herror
  cases herror

end Allocator

namespace Allocation

open Allocator

variable {ret : Reg} {index : Nat} {i : Instr} {a b c : Allocator} {asm : Asm}
  {scope reads us : List Var} {v : Var} {held : List PoolReg} {f : Failure}

/-! ### The requests of a selection -/

/-- Some operands have got registers, one after the other and each away from the ones before it. -/
inductive Seated (a : Allocator) : List Var → Allocator → List PoolReg → Prop
  | nil : Seated a [] a []
  | snoc {us : List Var} {b c : Allocator} {held : List PoolReg} {v : Var} {r : PoolReg}
      (hus : Seated a us b held)
      (hv : b.acquire v held = (.ok r, c)) : Seated a (us ++ [v]) c (held ++ [r])

/-- The requests of a selection, with the allocator that each one meets: for the next operand, or
for the destination once every operand is seated. -/
inductive Asks (i : Instr) (a : Allocator) : Allocator → Var → List PoolReg → Prop
  | operand {us back : List Var} {c : Allocator} {held : List PoolReg} {v : Var}
      (hus : Seated a us c held)
      (huses : i.uses = us ++ v :: back) : Asks i a c v held
  | dst {c : Allocator} {held : List PoolReg} {v : Var} (hus : Seated a i.uses c held)
      (hdst : i.dst? = some v) :
      Asks i a c v held

theorem Seated.sameLayout (h : Seated a us c held) : SameLayout a c := by
  induction h with
  | nil => exact .refl a
  | snoc _ hv ih => exact ih.trans (sameLayout_acquire hv)

theorem Seated.length_eq (h : Seated a us c held) : held.length = us.length := by
  induction h with
  | nil => rfl
  | snoc _ _ ih =>
      rw [List.length_append, List.length_append, ih, List.length_singleton, List.length_singleton]

theorem Seated.ready (h : Seated a us c held) (ha : a.Ready scope reads) (hin : us ⊆ scope) :
    c.Ready scope reads := by
  induction h with
  | nil => exact ha
  | snoc _ hv ih =>
      obtain ⟨hfront, hlast⟩ := List.append_subset.1 hin
      exact (ih hfront).acquire (hlast List.mem_cons_self) hv

theorem Seated.exists_held (h : Seated a us c held) {s : PoolReg} (hs : s ∈ held) :
    ∃ w ∈ us, c.register? w = some s := by
  induction h with
  | nil => cases hs
  | @snoc us b c held v r _ hv ih =>
      obtain hs | hs := List.mem_append.1 hs
      · obtain ⟨w, hw, hheld⟩ := ih hs
        exact ⟨w, List.mem_append_left _ hw, register?_acquire_of_mem hv hheld hs⟩
      · rw [List.mem_singleton.1 hs]
        exact ⟨v, List.mem_append_right _ (List.mem_singleton_self v), register?_acquire_self hv⟩

theorem Asks.exists_seated (h : Asks i a c v held) : ∃ us, us ⊆ i.uses ∧ Seated a us c held := by
  cases h with
  | operand hus huses => exact ⟨_, huses ▸ List.subset_append_left _ _, hus⟩
  | dst hus => exact ⟨_, List.Subset.refl _, hus⟩

theorem Asks.mem_occurrences (h : Asks i a c v held) : v ∈ i.occurrences := by
  cases h with
  | operand _ huses => exact List.mem_append_right _ (by simp [huses])
  | dst _ hdst => exact List.mem_append_left _ (by simp [hdst])

theorem Asks.sameLayout (h : Asks i a c v held) : SameLayout a c := by
  obtain ⟨us, _, hus⟩ := h.exists_seated
  exact hus.sameLayout

theorem Asks.ready (h : Asks i a c v held) (ha : a.Ready scope reads) (hin : i.Within scope) :
    c.Ready scope reads := by
  obtain ⟨us, hsub, hus⟩ := h.exists_seated
  exact hus.ready ha fun w hw => hin.use (hsub hw)

/-- A request stays away from two registers at most. -/
theorem Asks.length_lt (h : Asks i a c v held) : held.length < 3 := by
  have huses : i.uses.length ≤ 2 := by
    refine Nat.le_trans (List.length_filterMap_le ..) ?_
    cases i <;> simp [Instr.operands]
  cases h with
  | operand hus hsplit =>
      rw [hsplit, List.length_append, List.length_cons] at huses
      rw [hus.length_eq]
      omega
  | dst hus =>
      rw [hus.length_eq]
      omega

/-- What every request and every consumption keeps, a selection keeps. -/
theorem Selected.preserves_of_asks {P : Allocator → Prop} (h : Selected ret i a asm b)
    (hacq : ∀ {c d v held r}, Asks i a c v held → P c → c.acquire v held = (.ok r, d) → P d)
    (hcon : ∀ {c d v}, P c → c.consume v = (.ok (), d) → P d) (ha : P a) : P b := by
  cases h with
  | retWord => exact ha
  | retVar hv hrel => exact hcon (hacq (.operand .nil rfl) ha hv) hrel
  | movWord hdst => exact hacq (.dst .nil rfl) ha hdst
  | movVar hsrc hdst hrel =>
      have hb := hacq (.operand .nil rfl) ha hsrc
      exact hcon (hacq (.dst (.snoc .nil hsrc) rfl) hb hdst) hrel
  | withWord _ hlhs hdst hrel =>
      have hb := hacq (.operand .nil rfl) ha hlhs
      exact hcon (hacq (.dst (.snoc .nil hlhs) rfl) hb hdst) hrel
  | withVar hlhs hrhs hdst hrelL hrelR =>
      have hb := hacq (.operand .nil rfl) ha hlhs
      have hc := hacq (.operand (.snoc .nil hlhs) rfl) hb hrhs
      exact hcon (hcon (hacq (.dst (.snoc (.snoc .nil hlhs) hrhs) rfl) hc hdst) hrelL) hrelR

theorem Selected.preserves {P : Allocator → Prop} (h : Selected ret i a asm b)
    (hacq : ∀ {a b v excluded r}, P a → a.acquire v excluded = (.ok r, b) → P b)
    (hcon : ∀ {a b v}, P a → a.consume v = (.ok (), b) → P b) (ha : P a) : P b :=
  h.preserves_of_asks (fun _ => hacq) hcon ha

theorem Selected.sameLayout (h : Selected ret i a asm b) : SameLayout a b :=
  h.preserves (fun hab hacq => hab.trans (sameLayout_acquire hacq))
    (fun hab hcon => hab.trans (sameLayout_consume hcon)) (.refl a)

/-- A selection consumes the reads of its instruction and leaves the allocator ready for the
rest. -/
theorem Selected.ready (hsel : Selected ret i a asm b) (h : a.Ready scope (i.uses ++ reads))
    (hin : i.Within scope) : b.Ready scope reads := by
  cases hsel with
  | retWord => exact h
  | retVar hv hrel => exact (h.acquire (hin.use List.mem_cons_self) hv).consume hrel
  | movWord hdst => exact h.acquire (hin.dst rfl) hdst
  | movVar hsrc hdst hrel =>
      have hready := h.acquire (hin.use List.mem_cons_self) hsrc
      exact (hready.acquire (hin.dst rfl) hdst).consume hrel
  | withWord _ hlhs hdst hrel =>
      have hready := h.acquire (hin.use List.mem_cons_self) hlhs
      exact (hready.acquire (hin.dst rfl) hdst).consume hrel
  | withVar hlhs hrhs hdst hrelL hrelR =>
      have hreadyL := h.acquire (hin.use List.mem_cons_self) hlhs
      have hreadyR := hreadyL.acquire (hin.use (List.mem_cons_of_mem _ List.mem_cons_self)) hrhs
      exact ((hreadyR.acquire (hin.dst rfl) hdst).consume hrelL).consume hrelR

/-- An instruction that is not misplaced is refused only by one of its requests, since the reads to
consume are counted. -/
theorem asks_of_run_select (h : a.Ready scope (i.uses ++ reads)) (hin : i.Within scope)
    (hplaced : i.isMisplaced = false) (hrun : (select ret index i).run a = (.error f, b)) :
    ∃ c v held, Asks i a c v held ∧ c.acquire v held = (.error f, b) := by
  obtain ⟨dst, src | value⟩ | ⟨op, dst, lhs | x, rhs | value⟩ | ⟨v | value⟩ := i
  · have hsrcIn : src ∈ scope := hin.use List.mem_cons_self
    simp only [select, run_bind_eq_error_iff, run_claim, run_release, run_pure_ne_error,
      and_false, exists_false, or_false] at hrun
    obtain hsrc | ⟨rs, c, hsrc, hdst | ⟨rd, d, hdst, hrel⟩⟩ := hrun
    · exact ⟨_, _, _, .operand .nil rfl, hsrc⟩
    · exact ⟨_, _, _, .dst (.snoc .nil hsrc) rfl, hdst⟩
    · exact absurd hrel (((h.acquire hsrcIn hsrc).acquire (hin.dst rfl) hdst).consume_ne_error
        hsrcIn)
  · simp only [select, run_bind_eq_error_iff, run_claim, run_pure_ne_error, and_false, exists_false,
      or_false] at hrun
    exact ⟨_, _, _, .dst .nil rfl, hrun⟩
  · have hlhsIn : lhs ∈ scope := hin.use List.mem_cons_self
    have hrhsIn : rhs ∈ scope := hin.use (List.mem_cons_of_mem _ List.mem_cons_self)
    simp only [select, run_bind_eq_error_iff, run_claim, run_release, run_pure_ne_error,
      and_false, exists_false, or_false] at hrun
    obtain hlhs | ⟨rl, c, hlhs, hrhs | ⟨rr, d, hrhs, hdst | ⟨rd, e, hdst, hrel⟩⟩⟩ := hrun
    · exact ⟨_, _, _, .operand .nil rfl, hlhs⟩
    · exact ⟨_, _, _, .operand (.snoc .nil hlhs) rfl, hrhs⟩
    · exact ⟨_, _, _, .dst (.snoc (.snoc .nil hlhs) hrhs) rfl, hdst⟩
    · have he := ((h.acquire hlhsIn hlhs).acquire hrhsIn hrhs).acquire (hin.dst rfl) hdst
      obtain hrel | ⟨_, g, hrelL, hrelR⟩ := hrel
      · exact absurd hrel (he.consume_ne_error hlhsIn)
      · exact absurd hrelR ((he.consume hrelL).consume_ne_error hrhsIn)
  · have hlhsIn : lhs ∈ scope := hin.use List.mem_cons_self
    cases op with
    | mul => cases hplaced
    | add | sub =>
        simp only [select, run_bind_eq_error_iff, run_claim, run_release, run_pure_ne_error,
          and_false, exists_false, or_false] at hrun
        obtain hlhs | ⟨rl, c, hlhs, hdst | ⟨rd, d, hdst, hrel⟩⟩ := hrun
        · exact ⟨_, _, _, .operand .nil rfl, hlhs⟩
        · exact ⟨_, _, _, .dst (.snoc .nil hlhs) rfl, hdst⟩
        · exact absurd hrel (((h.acquire hlhsIn hlhs).acquire (hin.dst rfl) hdst).consume_ne_error
            hlhsIn)
  · cases hplaced
  · cases hplaced
  · have hvIn : v ∈ scope := hin.use List.mem_cons_self
    simp only [select, run_bind_eq_error_iff, run_claim, run_release, run_pure_ne_error,
      and_false, exists_false, or_false] at hrun
    obtain hv | ⟨rs, c, hv, hrel⟩ := hrun
    · exact ⟨_, _, _, .operand .nil rfl, hv⟩
    · exact absurd hrel ((h.acquire hvIn hv).consume_ne_error hvIn)
  · cases hrun

theorem run_select_eq_error (h : a.Ready scope (i.uses ++ reads)) (hpool : 3 ≤ a.poolSize)
    (hin : i.Within scope) (hplaced : i.isMisplaced = false)
    (hrun : (select ret index i).run a = (.error f, b)) :
    f = .trapped .depthOverflow ∧ ¬ a.Roomy scope := by
  obtain ⟨c, v, held, hasks, hacq⟩ := asks_of_run_select h hin hplaced hrun
  have hac := hasks.sameLayout
  obtain ⟨hcause, hfull⟩ :=
    (hasks.ready h hin).acquire_eq_error (hac.1.symm ▸ hpool) hasks.length_lt hacq
  exact ⟨hcause, fun hroomy => hfull (hroomy.of_sameLayout hac)⟩

theorem exists_selected (h : a.Ready scope (i.uses ++ reads)) (hroomy : a.Roomy scope)
    (hin : i.Within scope) (hplaced : i.isMisplaced = false) (ret : Reg) :
    ∃ asm b, Selected ret i a asm b := by
  rcases hrun : (select ret 0 i).run a with ⟨f | asm, b⟩
  · exact absurd hroomy (run_select_eq_error h hroomy.1 hin hplaced hrun).2
  · exact ⟨asm, b, run_select_eq_ok_iff.1 hrun⟩

end Allocation

end StraightLine

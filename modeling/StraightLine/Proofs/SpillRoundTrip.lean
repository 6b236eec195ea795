import StraightLine.Proofs.Allocator.Values

/-!
# Spilling and reloading keep values

A client uses the allocator in any order it likes: it acquires registers with any exclusions and
runs the spill code at once, writes registers of variables, and consumes reads. A variable stands
for the word that its register held after it was first acquired, until the client writes another.
Whatever the client does, the word of a variable with a pending read is in its register or, while it
has none, in its slot, so acquiring the variable again gives a register with its word.

Slots are words of memory above the stack pointer, which a client never moves.
-/

namespace StraightLine

inductive Request where
  | acquire (v : Var) (excluded : List PoolReg)
  | write (v : Var) (x : Int32)
  | consume (v : Var)

/-- An allocator in use, the machine that runs its spill code, and the words that the variables
stand for. -/
structure Client where
  allocator : Allocator
  machine : Machine
  words : Env

namespace Client

def start (a : Allocator) (m : Machine) : Client := ⟨a, m, fun _ => none⟩

def step (c : Client) : Request → Client
  | .acquire v excluded =>
      match c.allocator.acquire v excluded with
      | (.error _, a) => { c with allocator := a }
      | (.ok r, a) =>
          let (code, a) := a.drain
          let machine := c.machine.run code
          ⟨a, machine, c.words.note v (machine.reg (.pool r))⟩
  | .write v x =>
      match c.allocator.register? v with
      | none => c
      | some r => { c with machine := c.machine.setReg (.pool r) x, words := c.words.set v x }
  | .consume v => { c with allocator := (c.allocator.consume v).2 }

def run (c : Client) (requests : List Request) : Client := requests.foldl step c

/-- Whether a request successfully acquires a variable. -/
def Acquires (c : Client) (v : Var) : Request → Prop
  | .acquire w excluded => w = v ∧ ∃ r b, c.allocator.acquire w excluded = (.ok r, b)
  | _ => False

/-- Whether one of some requests successfully acquires a variable. -/
def Acquired (c : Client) (v : Var) : List Request → Prop
  | [] => False
  | request :: rest => c.Acquires v request ∨ (c.step request).Acquired v rest

structure Sound (c : Client) : Prop where
  queue_nil : c.allocator.queue = []
  stacked : c.allocator.Stacked
  faithful : c.allocator.Faithful c.machine c.words
  bound : ∀ {v r}, c.allocator.register? v = some r → c.words v ≠ none

variable {c : Client} {v w : Var} {x : Int32} {r : PoolReg} {b : Allocator}
  {excluded : List PoolReg}

theorem step_acquire_ok (h : c.allocator.acquire v excluded = (.ok r, b)) :
    c.step (.acquire v excluded) =
    ⟨b.drain.2, c.machine.run b.queue, c.words.note v ((c.machine.run b.queue).reg (.pool r))⟩ := by
  rw [step, h]
  rfl

theorem step_acquire_error {f : Failure} (h : c.allocator.acquire v excluded = (.error f, b)) :
    c.step (.acquire v excluded) = c := by
  rw [step, h, Allocator.acquire_eq_error h]

theorem sound_start {poolSize slotSize : Nat} {pending : PendingReads} {a : Allocator}
    (h : Allocator.create poolSize slotSize pending = .ok a) (m : Machine) : (start a m).Sound := by
  rw [Allocator.create] at h
  split at h
  · cases h
  · split at h
    · cases h
    · next hslot =>
        cases h
        refine ⟨rfl, Allocator.stacked_initial (Nat.pos_of_ne_zero hslot),
          fun v x hx => ?_, fun hv => ?_⟩
        · cases hx
        · cases hv

theorem Sound.faithful_acquire (hc : c.Sound) (h : c.allocator.acquire v excluded = (.ok r, b)) :
    b.Faithful (c.machine.run b.queue)
      (c.words.note v ((c.machine.run b.queue).reg (.pool r))) := by
  refine Allocator.Faithful.acquire hc.stacked ?_ h
  rw [hc.queue_nil]
  exact hc.faithful

theorem Sound.step (hc : c.Sound) (request : Request) : (c.step request).Sound := by
  cases request with
  | acquire v excluded =>
      rcases hacq : c.allocator.acquire v excluded with ⟨_ | r, b⟩
      · rw [step_acquire_error hacq]
        exact hc
      · rw [step_acquire_ok hacq]
        refine ⟨rfl, (hc.stacked.acquire hacq).drain, hc.faithful_acquire hacq, fun {w s} hw => ?_⟩
        have hreg : b.register? w = some s := hw
        show c.words.note v _ w ≠ none
        rw [Allocator.register?_acquire hacq] at hreg
        by_cases hwv : w = v
        · rw [hwv, Env.note_self]
          exact Option.some_ne_none _
        · rw [if_neg hwv] at hreg
          rw [Env.note_of_ne hwv]
          split at hreg
          · cases hreg
          · exact hc.bound hreg
  | write v x =>
      rw [Client.step]
      split
      · exact hc
      · next r hheld =>
          refine ⟨hc.queue_nil, hc.stacked, hc.faithful.write hheld x, fun {w s} hw => ?_⟩
          show c.words.set v x w ≠ none
          by_cases hwv : w = v
          · rw [hwv, Env.set_self]
            exact Option.some_ne_none x
          · rw [Env.set_of_ne hwv]
            exact hc.bound hw
  | consume v =>
      obtain ⟨pending, hstate, _⟩ := Allocator.consume_eq c.allocator v
      have hstacked := hc.stacked.consume v
      have hfaithful := hc.faithful.consume v
      rw [Client.step]
      rw [hstate] at hstacked hfaithful ⊢
      exact ⟨hc.queue_nil, hstacked, hfaithful, hc.bound⟩

theorem Sound.run (hc : c.Sound) (requests : List Request) : (c.run requests).Sound := by
  induction requests generalizing c with
  | nil => exact hc
  | cons request rest ih => exact ih (hc.step request)

theorem Sound.words_step_ne_none_iff (hc : c.Sound) (request : Request) :
    (c.step request).words v ≠ none ↔ c.words v ≠ none ∨ c.Acquires v request := by
  cases request with
  | acquire w excluded =>
      rcases hacq : c.allocator.acquire w excluded with ⟨_ | r, b⟩
      · rw [step_acquire_error hacq]
        simp [Acquires, hacq]
      · rw [step_acquire_ok hacq]
        by_cases hv : v = w
        · simp [Acquires, hacq, hv, Env.note_self]
        · simp [Acquires, Env.note_of_ne hv, Ne.symm hv]
  | write w x =>
      rw [Client.step]
      split
      · simp [Acquires]
      · next r hheld =>
          by_cases hv : v = w
          · simp [hv, hc.bound hheld]
          · simp [Acquires, Env.set_of_ne hv]
  | consume w => simp [Client.step, Acquires]

theorem Sound.words_run_ne_none_iff (hc : c.Sound) (requests : List Request) :
    (c.run requests).words v ≠ none ↔ c.words v ≠ none ∨ c.Acquired v requests := by
  induction requests generalizing c with
  | nil => simp [Client.run, Acquired]
  | cons request rest ih =>
      have hstep : c.run (request :: rest) = (c.step request).run rest := rfl
      rw [hstep, ih (hc.step request), hc.words_step_ne_none_iff, Acquired, or_assoc]

/-- The register that an acquisition gives to a live variable holds its word. -/
theorem Sound.reg_acquire (hc : c.Sound) (hx : c.words v = some x)
    (hlive : c.allocator.pending.Live v) (h : c.allocator.acquire v excluded = (.ok r, b)) :
    (c.machine.run b.queue).reg (.pool r) = x := by
  have hfaithful := hc.faithful_acquire h
  refine hfaithful.reg_eq (Allocator.register?_acquire_self h) ?_ (Env.note_eq_of_some hx)
  rw [Allocator.pending_acquire h]
  exact hlive

theorem sp_step (hc : c.Sound) (request : Request) :
    (c.step request).machine.reg .sp = c.machine.reg .sp := by
  cases request with
  | acquire v excluded =>
      rcases hacq : c.allocator.acquire v excluded with ⟨_ | r, b⟩
      · rw [step_acquire_error hacq]
      · rw [step_acquire_ok hacq, Allocator.sp_run_acquire hacq, hc.queue_nil, Machine.run_nil]
  | write v x =>
      rw [step]
      split
      · rfl
      · simp
  | consume v => rfl

theorem sp_run (hc : c.Sound) (requests : List Request) :
    (c.run requests).machine.reg .sp = c.machine.reg .sp := by
  induction requests generalizing c with
  | nil => rfl
  | cons request rest ih =>
      have hstep : c.run (request :: rest) = (c.step request).run rest := rfl
      rw [hstep, ih (hc.step request), sp_step hc]

/-- **Every live word is kept.** -/
theorem words_kept {poolSize slotSize : Nat} {pending : PendingReads} {a : Allocator}
    (hcreate : Allocator.create poolSize slotSize pending = .ok a) (m : Machine)
    (requests : List Request) :
    let c := (start a m).run requests
    c.machine.reg .sp = m.reg .sp ∧
      ∀ v, (start a m).Acquired v requests → c.allocator.pending.Live v →
        ∃ x, c.words v = some x ∧ c.allocator.Holds c.machine v x ∧
          ∀ excluded r b, c.allocator.acquire v excluded = (.ok r, b) →
            (c.machine.run b.queue).reg (.pool r) = x := by
  intro c
  have hstart := sound_start hcreate m
  have hrun : c.Sound := hstart.run requests
  refine ⟨sp_run hstart requests, fun v hacquired hlive => ?_⟩
  have hsome : c.words v ≠ none := (hstart.words_run_ne_none_iff requests).2 (Or.inr hacquired)
  obtain ⟨x, hx⟩ := Option.ne_none_iff_exists'.1 hsome
  exact ⟨x, hx, hrun.faithful v x hx hlive, fun excluded r b h => hrun.reg_acquire hx hlive h⟩

/-- In a pool of one register the word of `a` goes to the stack when `b` is acquired, and comes
back. -/
theorem words_kept_evicted :
    let a : Var := ⟨"a"⟩
    let b : Var := ⟨"b"⟩
    let pending := PendingReads.ofProgram ⟨[.ret (.var a), .ret (.var b)]⟩
    let allocator := Allocator.initial 1 4 4 pending
    let m : Machine := ⟨fun _ => 1, fun _ => 2⟩
    let requests := [.acquire a [], .write a 5, .acquire b []]
    let c := (start allocator m).run requests
    Allocator.create 1 4 pending = .ok allocator ∧ (start allocator m).Acquired a requests ∧
      c.allocator.pending.Live a ∧ c.allocator.register? a = none ∧
      c.allocator.Holds c.machine a 5 ∧
      ∀ excluded r b, c.allocator.acquire a excluded = (.ok r, b) →
      (c.machine.run b.queue).reg (.pool r) = 5 := by
  intro a b pending allocator m requests c
  have hcreate : Allocator.create 1 4 pending = .ok allocator := rfl
  have hacquired : (start allocator m).Acquired a requests :=
    Or.inl ⟨rfl, ⟨0⟩, allocator.settle a (.found .free ⟨0⟩), rfl⟩
  have hcount : c.allocator.pending.remaining? a = some 1 := by decide
  have hlive : c.allocator.pending.Live a := ⟨0, hcount⟩
  obtain ⟨_, hkept⟩ := words_kept hcreate m requests
  obtain ⟨x, hx, hholds, hagain⟩ := hkept a hacquired hlive
  have hfive : c.words a = some 5 := by decide
  have hword : x = 5 := Option.some.inj (hx.symm.trans hfive)
  subst hword
  exact ⟨hcreate, hacquired, hlive, by decide, hholds, hagain⟩

end Client

end StraightLine

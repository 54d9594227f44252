import ClassLet.Proofs.Machine.Runs

/-!
# The first cells of the code

A machine does what the cells say that it has taken, so as long as it takes none but the first ones
it does not matter what is behind them. Only where it reports an address of the code the size of
the code may show.

Main statements: `Machine.Reaches.extended`, and `Machine.apart_of_endsInside` for runs that end.
-/

namespace ClassLet

namespace Machine

/-- The machine that code is loaded into. -/
def start (code : List Int32) (memorySize : Nat) : Machine where
  code := code.toArray
  memory := Memory.zeroed memorySize
  ip := 0
  sp := Int32.ofNat memorySize
  fp := Int32.ofNat memorySize
  hp := 0
  ra := 0
  tm := 0
  output := #[]

/-- The machine with more cells behind its code. -/
def extended (m : Machine) (more : List Int32) : Machine :=
  { m with code := m.code ++ more.toArray }

theorem start_append (code more : List Int32) (memorySize : Nat) :
    start (code ++ more) memorySize = (start code memorySize).extended more := by
  simp [start, extended]

@[simp]
theorem memory_extended (m : Machine) (more : List Int32) :
    (m.extended more).memory = m.memory :=
  rfl

@[simp]
theorem sp_extended (m : Machine) (more : List Int32) : (m.extended more).sp = m.sp :=
  rfl

theorem cell_extended (m : Machine) (more : List Int32) {i : Nat} {v : Int32}
    (h : m.code[i]? = some v) : (m.extended more).code[i]? = some v := by
  rcases Array.getElem?_eq_some_iff.mp h with ⟨hlt, _⟩
  exact (Array.getElem?_append_left hlt).trans h

end Machine

namespace Trap

/-- An address of the code was not in range. -/
def ofCode : Trap → Bool
  | codeOutOfRange _ _ => true
  | _ => false

end Trap

namespace Exec

/-!
# Effects
-/

/-- The same outcome, with more cells behind the code. -/
def extended {α : Type} (more : List Int32) :
    EStateM.Result Trap Machine α → EStateM.Result Trap Machine α
  | .ok a m => .ok a (m.extended more)
  | .error trap m => .error trap (m.extended more)

/-- More cells behind the code make no difference, unless an address of the code is reported. -/
def Extends {α : Type} (f : Exec α) : Prop :=
  ∀ (m : Machine) (more : List Int32),
    (∃ trap m', f.run m = .error trap m' ∧ trap.ofCode = true) ∨
      f.run (m.extended more) = extended more (f.run m)

namespace Extends

variable {α β : Type}

theorem pure (a : α) : Extends (Pure.pure a) :=
  fun _ _ => Or.inr rfl

theorem trap (trap : Trap) : Extends (throw trap : Exec α) :=
  fun _ _ => Or.inr rfl

theorem bind {f : Exec α} {g : α → Exec β} (hf : Extends f) (hg : ∀ a, Extends (g a)) :
    Extends (f >>= g) := by
  intro m more
  rw [EStateM.run_bind, EStateM.run_bind]
  rcases hf m more with ⟨trap, m', hrun, hcode⟩ | hsame
  · rw [hrun]
    exact Or.inl ⟨trap, m', rfl, hcode⟩
  · rw [hsame]
    cases f.run m with
    | ok a m' => exact hg a m' more
    | error trap m' => exact Or.inr rfl

/-- What is read off the machine is not its code. -/
theorem state {g : Machine → Exec β} (hsame : ∀ m more, g (m.extended more) = g m)
    (hg : ∀ m, Extends (g m)) : Extends (get >>= g) := by
  intro m more
  rw [EStateM.run_bind, EStateM.run_bind, EStateM.run_get, EStateM.run_get]
  simp only [hsame]
  exact hg m m more

theorem registers {f : Machine → Machine}
    (hf : ∀ m more, f (m.extended more) = (f m).extended more) :
    Extends (modify f : Exec Unit) := by
  intro m more
  rw [EStateM.run_modify, EStateM.run_modify, hf]
  exact Or.inr rfl

/-!
# Accesses of the memory and of the code
-/

theorem read (address : Int32) : Extends (Exec.read address) := by
  intro m more
  refine Or.inr ?_
  rw [read_run, read_run, Machine.memory_extended]
  cases m.memory.read? address with
  | none => rfl
  | some v => rfl

theorem write (address v : Int32) : Extends (Exec.write address v) := by
  intro m more
  refine Or.inr ?_
  rw [write_run, write_run, Machine.memory_extended]
  cases m.memory.write? address v with
  | none => rfl
  | some memory => rfl

theorem operand (start : Nat) : Extends (Exec.operand start) := by
  intro m more
  cases hcell : m.code[m.ip]? with
  | none => exact Or.inl ⟨_, m, operand_trapped hcell start, rfl⟩
  | some v =>
      refine Or.inr ?_
      rw [operand_run hcell, operand_run (m.cell_extended more hcell)]
      rfl

theorem jump (target : Int32) (start : Nat) : Extends (Exec.jump target start) := by
  intro m more
  by_cases hrange : 0 ≤ target.toInt ∧ target.toInt ≤ m.code.size
  · have htarget : target.toInt = (target.toInt.toNat : Int) := by omega
    have hsize : target.toInt.toNat ≤ m.code.size := by omega
    have hsize' : target.toInt.toNat ≤ (m.extended more).code.size := by
      simp only [Machine.extended, Array.size_append]
      omega
    refine Or.inr ?_
    rw [jump_run htarget hsize, jump_run htarget hsize']
    rfl
  · exact Or.inl ⟨_, m, jump_trapped hrange start, rfl⟩

theorem print : Extends Exec.print := by
  intro m more
  refine Or.inr ?_
  rw [print_run, print_run, Machine.memory_extended, Machine.sp_extended]
  cases m.memory.read? m.sp with
  | none => rfl
  | some v => rfl

/-!
# Accesses of the stack
-/

theorem push (v : Int32) : Extends (Exec.push v) :=
  state (fun _ _ => rfl) fun m => (write (m.sp - 1) v).bind fun _ => registers fun _ _ => rfl

theorem pop : Extends Exec.pop :=
  state (fun _ _ => rfl) fun m => (read m.sp).bind fun _ =>
    (registers fun _ _ => rfl).bind fun _ => pure _

theorem popRegister {set : Int32 → Machine → Machine}
    (hset : ∀ v m more, set v (m.extended more) = (set v m).extended more) :
    Extends (Exec.pop >>= fun v => modify (set v)) :=
  pop.bind fun v => registers (hset v)

/-!
# Instructions
-/

theorem binary (op : Int32 → Int32 → Int32) : Extends (Exec.binary op) :=
  pop.bind fun right => pop.bind fun left => push (op left right)

theorem divide (start : Nat) : Extends (Exec.divide start) := by
  refine pop.bind fun right => pop.bind fun left => ?_
  by_cases hzero : right = 0
  · simp only [if_pos hzero]
    exact (trap _).bind fun _ => push _
  · simp only [if_neg hzero]
    exact push _

theorem jumpIf (holds : Int32 → Int32 → Bool) (start : Nat) :
    Extends (Exec.jumpIf holds start) := by
  refine (operand start).bind fun target => pop.bind fun right => pop.bind fun left => ?_
  split
  · exact jump target start
  · exact pure ()

theorem execute (start : Nat) (op : Opcode) : Extends (Exec.execute start op) := by
  cases op with
  | halt => exact pure ()
  | push => exact (operand start).bind fun v => push v
  | pop => exact pop.bind fun _ => pure ()
  | add => exact binary _
  | sub => exact binary _
  | mul => exact binary _
  | div => exact divide start
  | jump => exact (operand start).bind fun target => jump target start
  | jumpEq => exact jumpIf _ start
  | jumpLe => exact jumpIf _ start
  | call =>
      exact pop.bind fun target => (registers fun _ _ => rfl).bind fun _ => jump target start
  | pushFp => exact state (fun _ _ => rfl) fun m => push m.fp
  | popFp => exact popRegister fun _ _ _ => rfl
  | setFp => exact registers fun _ _ => rfl
  | pushRa => exact state (fun _ _ => rfl) fun m => push m.ra
  | popRa => exact popRegister fun _ _ _ => rfl
  | pushTm => exact state (fun _ _ => rfl) fun m => push m.tm
  | popTm => exact popRegister fun _ _ _ => rfl
  | pushHp => exact state (fun _ _ => rfl) fun m => push m.hp
  | popHp => exact popRegister fun _ _ _ => rfl
  | load => exact pop.bind fun address => (read address).bind fun v => push v
  | store => exact pop.bind fun address => pop.bind fun v => write address v
  | print => exact print

/-- What follows once the cell of the opcode has been taken. -/
theorem decoded (start : Nat) (cell : Int32) :
    Extends (match Opcode.decode? cell with
      | none => throw (.unknownOpcode cell start)
      | some op => do
          modify fun m => { m with ip := m.ip + 1 }
          Exec.execute start op
          return if op = .halt then Progress.halted else Progress.running) := by
  cases Opcode.decode? cell with
  | none => exact trap _
  | some op =>
      exact (registers fun _ _ => rfl).bind fun _ => (execute start op).bind fun _ => pure _

end Extends

end Exec

/-!
# Runs
-/

/-- A jump to a negative address is refused, whatever the code. -/
theorem Exec.jumpEq_refused {m : Machine} {target v : Int32}
    (hop : m.code[m.ip]? = some Opcode.jumpEq.cell) (htarget : m.code[m.ip + 1]? = some target)
    (hright : m.memory.read? m.sp = some v) (hleft : m.memory.read? (m.sp + 1) = some v)
    (hnegative : target.toInt < 0) :
    step.run m = .error (.codeOutOfRange target m.ip)
      { m with ip := m.ip + 2, sp := m.sp + 1 + 1 } := by
  have hrange : ¬(0 ≤ target.toInt ∧ target.toInt ≤ m.code.size) := by omega
  have hoperand : ({ m with ip := m.ip + 1 } : Machine).code[m.ip + 1]? = some target := htarget
  refine step_trapped hop ?_
  simp only [execute, jumpIf, EStateM.run_bind, operand_run hoperand, pop_run, hright, hleft,
    BEq.rfl, if_true]
  exact jump_trapped (m := { m with ip := m.ip + 2, sp := m.sp + 1 + 1 }) hrange m.ip

namespace Machine

variable {m m' : Machine} {n steps : Nat} (more : List Int32)

/-- An instruction whose opcode is one of the first cells. -/
theorem step_extended (hcell : m.ip < m.code.size) :
    (∃ trap m', Exec.step.run m = .error trap m' ∧ trap.ofCode = true) ∨
      Exec.step.run (m.extended more) = Exec.extended more (Exec.step.run m) := by
  have hfetch : m.code[m.ip]? = some m.code[m.ip] := Array.getElem?_eq_getElem hcell
  have hfetch' : (m.extended more).code[(m.extended more).ip]? = some m.code[m.ip] :=
    m.cell_extended more hfetch
  unfold Exec.step
  rw [EStateM.run_bind, EStateM.run_bind, EStateM.run_get, EStateM.run_get]
  simp only [hfetch, hfetch']
  exact Exec.Extends.decoded m.ip m.code[m.ip] m more

/-- An instruction that the run goes on behind. -/
theorem running_extended (h : Exec.step.run m = .ok .running m') :
    Exec.step.run (m.extended more) = .ok .running (m'.extended more) := by
  have hcell : m.ip < m.code.size := by
    refine Classical.byContradiction fun hout => ?_
    rw [Exec.step_halted (Array.getElem?_eq_none (Nat.not_lt.mp hout))] at h
    cases h
  rcases step_extended more hcell with ⟨trap, m'', htrap, _⟩ | hsame
  · rw [h] at htrap
    cases htrap
  · rw [hsame, h]
    rfl

theorem Reaches.extended (h : m.Reaches n m') :
    (m.extended more).Reaches n (m'.extended more) := by
  induction h with
  | refl m => exact refl _
  | step hrun _ ih => exact step (running_extended more hrun) ih

/-- The states of a run whose steps are all taken within the first cells. -/
theorem reaches_run_extended {j : Nat} (hrun : (m.run n).1 = .outOfSteps) (hle : j ≤ n) :
    (m.extended more).Reaches j ((m.run j).2.extended more) := by
  rcases (Reaches.of_run (Prod.ext hrun rfl)).le hle with ⟨m₁, hreaches⟩
  rw [hreaches.run_eq]
  exact hreaches.extended more

/-- The run ends within the given number of steps, at one of the cells and not because of an address
of the code, and heap and stack do not meet before. -/
def endsInside : Nat → Machine → Bool
  | 0, _ => false
  | steps + 1, m =>
      decide (m.ip < m.code.size) && decide (m.hp.toInt < m.sp.toInt) &&
        match Exec.step.run m with
        | .ok .running m' => endsInside steps m'
        | .ok .halted _ => true
        | .error trap _ => !trap.ofCode

/-- What ends among the first cells also ends there with more cells behind. -/
theorem apart_of_endsInside (hends : m.endsInside steps = true)
    (hreaches : (m.extended more).Reaches n m') : m'.Apart := by
  induction steps generalizing m n with
  | zero => cases hends
  | succ steps ih =>
      simp only [endsInside, Bool.and_eq_true, decide_eq_true_eq] at hends
      rcases hends with ⟨⟨hcell, hapart⟩, hrest⟩
      cases hreaches with
      | refl => exact hapart
      | step hrun hreaches =>
          rcases step_extended more hcell with ⟨trap, m₁, htrap, hcode⟩ | hsame
          · simp [htrap, hcode] at hrest
          · rw [hrun] at hsame
            cases hstep : Exec.step.run m with
            | error trap m₁ =>
                rw [hstep] at hsame
                cases hsame
            | ok progress m₁ =>
                rw [hstep] at hsame hrest
                cases hsame
                exact ih hrest hreaches

end Machine

end ClassLet

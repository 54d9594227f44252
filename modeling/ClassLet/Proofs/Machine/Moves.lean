import ClassLet.Proofs.Generation.ForwardJumps
import ClassLet.Proofs.Machine.Instructions

/-!
# Where instructions lead

An instruction that is completed leads to the next one, or to the target that a jump has in its
operand; only a call may lead anywhere.

Main statement: `Exec.step_moves`.
-/

namespace ClassLet

namespace Exec

variable {α β : Type}

theorem bind_ok {f : Exec α} {g : α → Exec β} {m m' : Machine} {b : β}
    (h : (f >>= g).run m = .ok b m') :
    ∃ a m₁, f.run m = .ok a m₁ ∧ (g a).run m₁ = .ok b m' := by
  rw [EStateM.run_bind] at h
  cases hf : f.run m with
  | error trap m₁ =>
      rw [hf] at h
      cases h
  | ok a m₁ =>
      rw [hf] at h
      exact ⟨a, m₁, rfl, h⟩

/-!
# Effects that do not move
-/

/-- The instruction pointer is where it was if the effect is completed. -/
def Stays (f : Exec α) : Prop :=
  ∀ m a m', f.run m = .ok a m' → m'.ip = m.ip

namespace Stays

theorem pure (a : α) : Stays (Pure.pure a) := by
  intro m b m' h
  cases h
  rfl

theorem bind {f : Exec α} {g : α → Exec β} (hf : Stays f) (hg : ∀ a, Stays (g a)) :
    Stays (f >>= g) := by
  intro m b m' h
  rcases bind_ok h with ⟨a, m₁, hfirst, hsecond⟩
  exact (hg a m₁ b m' hsecond).trans (hf m a m₁ hfirst)

theorem trap (trap : Trap) : Stays (throw trap : Exec α) := by
  intro m a m' h
  cases h

theorem state : Stays (get : Exec Machine) := by
  intro m a m' h
  cases h
  rfl

theorem registers {f : Machine → Machine} (hf : ∀ m, (f m).ip = m.ip) :
    Stays (modify f : Exec Unit) := by
  intro m a m' h
  cases h
  exact hf m

theorem push (v : Int32) : Stays (Exec.push v) := by
  intro m a m' h
  rw [push_run] at h
  split at h
  · cases h
    rfl
  · cases h

theorem pop : Stays Exec.pop := by
  intro m a m' h
  rw [pop_run] at h
  split at h
  · cases h
    rfl
  · cases h

theorem read (address : Int32) : Stays (Exec.read address) := by
  intro m a m' h
  rw [read_run] at h
  split at h
  · cases h
    rfl
  · cases h

theorem write (address v : Int32) : Stays (Exec.write address v) := by
  intro m a m' h
  rw [write_run] at h
  split at h
  · cases h
    rfl
  · cases h

theorem print : Stays Exec.print := by
  intro m a m' h
  rw [print_run] at h
  split at h <;> cases h <;> rfl

theorem binary (op : Int32 → Int32 → Int32) : Stays (Exec.binary op) :=
  pop.bind fun right => pop.bind fun left => push (op left right)

theorem divide (start : Nat) : Stays (Exec.divide start) := by
  refine pop.bind fun right => pop.bind fun left => ?_
  by_cases hzero : right = 0
  · simp only [if_pos hzero]
    exact (trap _).bind fun _ => push _
  · simp only [if_neg hzero]
    exact push _

theorem popRegister {set : Int32 → Machine → Machine} (hset : ∀ v m, (set v m).ip = m.ip) :
    Stays (Exec.pop >>= fun v => modify (set v)) :=
  pop.bind fun v => registers (hset v)

/-- Operations that neither take an operand nor call. -/
theorem execute {op : Opcode} (hoperand : op.hasOperand = false) (hcall : op ≠ .call)
    (start : Nat) : Stays (Exec.execute start op) := by
  cases op with
  | halt => exact pure ()
  | push => cases hoperand
  | pop => exact pop.bind fun _ => pure ()
  | add => exact binary _
  | sub => exact binary _
  | mul => exact binary _
  | div => exact divide start
  | jump => cases hoperand
  | jumpEq => cases hoperand
  | jumpLe => cases hoperand
  | call => exact absurd rfl hcall
  | pushFp => exact state.bind fun m => push m.fp
  | popFp => exact popRegister fun _ _ => rfl
  | setFp => exact registers fun _ => rfl
  | pushRa => exact state.bind fun m => push m.ra
  | popRa => exact popRegister fun _ _ => rfl
  | pushTm => exact state.bind fun m => push m.tm
  | popTm => exact popRegister fun _ _ => rfl
  | pushHp => exact state.bind fun m => push m.hp
  | popHp => exact popRegister fun _ _ => rfl
  | load => exact pop.bind fun address => (read address).bind fun v => push v
  | store => exact pop.bind fun address => pop.bind fun v => write address v
  | print => exact print

end Stays

/-!
# Operands and jumps
-/

theorem operand_ok {start : Nat} {m m' : Machine} {v : Int32}
    (h : (operand start).run m = .ok v m') :
    m.code[m.ip]? = some v ∧ m' = { m with ip := m.ip + 1 } := by
  cases hcell : m.code[m.ip]? with
  | none =>
      rw [operand_trapped hcell] at h
      cases h
  | some cell =>
      rw [operand_run hcell] at h
      cases h
      exact ⟨rfl, rfl⟩

theorem jump_ok {target : Int32} {start : Nat} {m m' : Machine} {a : Unit}
    (h : (jump target start).run m = .ok a m') : m'.ip = target.toInt.toNat := by
  by_cases hrange : 0 ≤ target.toInt ∧ target.toInt ≤ m.code.size
  · rw [jump_run (a := target.toInt.toNat) (by omega) (by omega)] at h
    cases h
    rfl
  · rw [jump_trapped hrange] at h
    cases h

theorem jumpIf_ok {holds : Int32 → Int32 → Bool} {start : Nat} {m m' : Machine} {a : Unit}
    (h : (jumpIf holds start).run m = .ok a m') :
    m'.ip = m.ip + 1 ∨ ∃ target, m.code[m.ip]? = some target ∧ m'.ip = target.toInt.toNat := by
  unfold jumpIf at h
  rcases bind_ok h with ⟨target, m₁, hoperand, h₁⟩
  rcases bind_ok h₁ with ⟨right, m₂, hright, h₂⟩
  rcases bind_ok h₂ with ⟨left, m₃, hleft, h₃⟩
  rcases operand_ok hoperand with ⟨hcell, rfl⟩
  have hip : m₃.ip = m.ip + 1 := (Stays.pop _ _ _ hleft).trans (Stays.pop _ _ _ hright)
  split at h₃
  · exact Or.inr ⟨target, hcell, jump_ok h₃⟩
  · cases h₃
    exact Or.inl hip

/-- The next instruction, or the one that the operand of a jump refers to. -/
def Leads (op : Opcode) (m m' : Machine) : Prop :=
  m'.ip = m.ip + op.width ∨
    op.isJump = true ∧ ∃ target, m.code[m.ip + 1]? = some target ∧ m'.ip = target.toInt.toNat

theorem execute_moves {op : Opcode} (hcall : op ≠ .call) {start : Nat} {m m' : Machine} {a : Unit}
    (h : (execute start op).run { m with ip := m.ip + 1 } = .ok a m') : Leads op m m' := by
  have hjumpIf : ∀ holds, op.width = 2 → op.isJump = true →
      (jumpIf holds start).run { m with ip := m.ip + 1 } = .ok a m' → Leads op m m' := by
    intro holds hwidth hjump hrun
    rcases jumpIf_ok hrun with hip | ⟨target, hcell, hip⟩
    · exact Or.inl (by rw [hip, hwidth])
    · exact Or.inr ⟨hjump, target, hcell, hip⟩
  cases hoperand : op.hasOperand with
  | false =>
      refine Or.inl ?_
      rw [Opcode.width, if_neg (by simp [hoperand])]
      exact Stays.execute hoperand hcall start _ _ _ h
  | true =>
      cases op with
      | push =>
          rcases bind_ok h with ⟨v, m₁, hfetch, hpush⟩
          rcases operand_ok hfetch with ⟨_, rfl⟩
          exact Or.inl (Stays.push v _ _ _ hpush)
      | jump =>
          rcases bind_ok h with ⟨target, m₁, hfetch, hjump⟩
          rcases operand_ok hfetch with ⟨hcell, rfl⟩
          exact Or.inr ⟨rfl, target, hcell, jump_ok hjump⟩
      | jumpEq => exact hjumpIf _ rfl rfl h
      | jumpLe => exact hjumpIf _ rfl rfl h
      | _ => cases hoperand

/-- A machine that goes on has executed an instruction that is no `halt`. -/
theorem step_moves {op : Opcode} (hcall : op ≠ .call) {m m' : Machine}
    (hcell : m.code[m.ip]? = some op.cell) (h : step.run m = .ok .running m') :
    op ≠ .halt ∧ Leads op m m' := by
  rw [step_run hcell] at h
  split at h
  · rename_i a m₁ hexecute
    by_cases hhalt : op = .halt
    · rw [if_pos hhalt] at h
      cases h
    · rw [if_neg hhalt] at h
      cases h
      exact ⟨hhalt, execute_moves hcall hexecute⟩
  · cases h

end Exec

end ClassLet

import ClassLet.Assembly.Encoding
import ClassLet.Compilation
import ClassLet.Machine

/-!
# Building and running programs

A target is the machine that a program is built for: the top-level frame starts at the end of its
memory, and its code store limits the size of the program.
-/

namespace ClassLet

structure Target where
  codeSize : Nat := 10000
  memorySize : Nat := 10000
deriving DecidableEq, Repr, Inhabited

/-- Why a program cannot be built. -/
inductive BuildError where
  | rejected (errors : List Diagnostic)
  | incompleteProgram
  | memoryTooLarge (size : Nat)
  | assembly (error : AssemblyError)
deriving DecidableEq, Inhabited

namespace BuildError

def message : BuildError → String
  | rejected errors => s!"program rejected with {errors.length} error(s)"
  | incompleteProgram => "program type could not be determined"
  | memoryTooLarge size => s!"memory of {size} cells is not addressable"
  | assembly error => error.message

end BuildError

/-- Why a run gives no result. -/
inductive RunError where
  | load (cause : LoadError)
  | trap (cause : Trap)
  | outOfSteps
deriving DecidableEq, Repr, Inhabited

namespace RunError

def message : RunError → String
  | load cause => cause.message
  | trap cause => cause.message
  | outOfSteps => "program did not halt in time"

end RunError

/-- A program as assembly text and as code cells. -/
structure Build where
  assembly : String
  code : List Int32
deriving DecidableEq, Repr, Inhabited

namespace Target

def build (t : Target) (p : Program) : Except BuildError Build :=
  if isAddressable t.memorySize then
    let result := p.compile (Int32.ofNat t.memorySize)
    if result.errors.isEmpty then
      match result.listing with
      | none => .error .incompleteProgram
      | some listing =>
          let assembly := listing.text
          match assemble assembly t.codeSize with
          | .ok code => .ok { assembly, code }
          | .error e => .error (.assembly e)
    else
      .error (.rejected result.errors)
  else
    .error (.memoryTooLarge t.memorySize)

/-- What the code prints if it halts within the given number of steps. -/
def run (t : Target) (steps : Nat) (code : List Int32) : Except RunError (List Int32) :=
  match Machine.load code t.codeSize t.memorySize with
  | .error e => .error (.load e)
  | .ok machine =>
      match machine.run steps with
      | (.halted, machine) => .ok machine.output.toList
      | (.trapped trap, _) => .error (.trap trap)
      | (.outOfSteps, _) => .error .outOfSteps

end Target

end ClassLet

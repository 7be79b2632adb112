import StackAssembler.Assembly.Config
import StackAssembler.Machine.Operation

/-!
# Reach of control

Which instructions of a source are admitted to the program. Under `ReachPolicy.pruneAfterJump` the
instructions after an unconditional jump are left out until the next label; under
`ReachPolicy.keep` every instruction is admitted.
-/

namespace StackAssembler

/-- Whether instructions are being left out, under a policy. -/
structure Reach where
  policy : ReachPolicy
  skipping : Bool
  deriving DecidableEq, Repr

namespace Reach

/-- Nothing is left out at the start of a source. -/
def start (policy : ReachPolicy) : Reach := ⟨policy, false⟩

/-- Is the next instruction part of the program? -/
def admits (r : Reach) : Bool := !r.skipping

/-- The state behind a label. -/
def pastLabel (r : Reach) : Reach := { r with skipping := false }

def isJump (mnemonic : String) : Bool :=
  (Operation.named? mnemonic).any Operation.isUnconditionalJump

/-- The state behind an instruction. -/
def pastInstruction (r : Reach) (mnemonic : String) : Reach :=
  { r with skipping := r.skipping || (r.policy == .pruneAfterJump && isJump mnemonic) }

@[simp] theorem admits_start (policy : ReachPolicy) : (start policy).admits = true := rfl

@[simp] theorem admits_pastLabel (r : Reach) : r.pastLabel.admits = true := rfl

@[simp] theorem policy_pastLabel (r : Reach) : r.pastLabel.policy = r.policy := rfl

@[simp] theorem policy_pastInstruction (r : Reach) (mnemonic : String) :
    (r.pastInstruction mnemonic).policy = r.policy := rfl

end Reach

end StackAssembler

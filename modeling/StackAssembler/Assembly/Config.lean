import StackAssembler.Source.Fault

/-!
# Configuration of an assembly

How many words and labels a program may have, and what becomes of code that control cannot reach.
-/

namespace StackAssembler

/-- What to do with the instructions between an unconditional jump and the next label. -/
inductive ReachPolicy where
  | keep
  | pruneAfterJump
  deriving DecidableEq, Repr

/-- The limits and the policy of an assembly. -/
structure Config where
  maxWords : Nat := 1024
  labelCapacity : Nat := 100
  policy : ReachPolicy := .keep
  deriving DecidableEq, Repr

/-- Refuse limits of zero and an empty source, in this order. -/
def Config.check (config : Config) (source : String) : Except RequestFault Unit :=
  if config.maxWords = 0 then .error .noRoomForWords
  else if config.labelCapacity = 0 then .error .noRoomForLabels
  else if source = "" then .error .emptySource
  else .ok ()

end StackAssembler

import StackAssembler.Assembly.Assemble
import StackAssembler.Macro.Expansion

/-!
# Builds

From a source text to a program: expand the macros, then assemble. Lines are reported as they stand
in the source, whatever the expansion did to them.
-/

namespace StackAssembler

/-- Assemble an expanded source, and report in terms of the lines before expansion. -/
def assembleExpansion (config : Config) (x : Expansion) : Except AssemblyError Image :=
  match assemble config x.text with
  | .ok image => .ok (image.mapLines x.origin)
  | .error e => .error (e.mapLine x.origin)

inductive BuildError where
  | expansion (e : MacroError)
  | assembly (e : AssemblyError)
  deriving DecidableEq, Repr

def BuildError.message : BuildError → String
  | .expansion e => e.message
  | .assembly e => e.message

/-- Build a source, with macros or taking it as it is. -/
def build (config : Config) (macros : Bool) (source : String) : Except BuildError Image :=
  if macros then
    match expand source with
    | .error e => .error (.expansion e)
    | .ok x => (assembleExpansion config x).mapError .assembly
  else (assemble config source).mapError .assembly

end StackAssembler

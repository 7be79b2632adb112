import StackAssembler.Assembly.Emission
import StackAssembler.Assembly.Survey

/-!
# Assembling a source

The two passes together. The first pass has to succeed on the whole source before the second
begins, so a fault of a label definition is reported before any fault of an instruction.
-/

namespace StackAssembler

def assemble (config : Config) (source : String) : Except AssemblyError Image :=
  match config.check source with
  | .error fault => .error (.invalidInput fault)
  | .ok () => do
    let ls := sourceLines source
    let survey ← Survey.run config ls
    let emission ← Emission.run config survey.labels ls
    return ⟨emission.cells, survey.labels⟩

end StackAssembler

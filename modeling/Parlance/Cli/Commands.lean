import Parlance.Cli.Session
import Parlance.Demo.Calc
import Parlance.Demo.Greet
import Parlance.Demo.Toolbox

/-
  The demonstration languages as commands.
-/

namespace Parlance.Cli

/-- The calculator. -/
def calculator : App Demo.Calc.Name Demo.Calc.Generator Demo.Calc.Value :=
  ⟨"calc", Demo.Calc.language, Demo.Calc.Value.text⟩

/-- The greetings. -/
def greeter : App Demo.Greet.Name Unit String := ⟨"greet", Demo.Greet.language, id⟩

/-- The file commands. -/
def toolbox : App Demo.Toolbox.Name FileStore Demo.Toolbox.Value :=
  ⟨"toolbox", Demo.Toolbox.language, Demo.Toolbox.Value.show⟩

end Parlance.Cli

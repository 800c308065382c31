import Parlance.ProgramText
import Parlance.Text.Width

/-
  Reports of failures: the code and the message, the program with a mark under the token that the
  failure points at, and a hint where there is one.
-/

namespace Parlance.Cli

/-- The line under the program that marks a span. -/
def markLine (text : String) (span : Span) : String :=
  let before := (text.toList.foldl
    (fun (bytes, columns) c =>
      if bytes < span.offset then (bytes + c.utf8Size, columns + Text.charWidth c)
      else (bytes, columns)) (0, 0)).2
  String.ofList (List.replicate before ' ' ++ List.replicate (max span.length 1) '^')

/-- The report of a failure of a program. -/
def report (program : List String) (e : Error) : String :=
  let source := ProgramText.ofTokens program
  let marked := (source.locate e).toList.flatMap fun span =>
    ["  | " ++ source.text, "  | " ++ markLine source.text span ++ " here"]
  let hint := e.hint?.toList.map fun hint => "  help: " ++ hint
  Text.joinWith "\n" ([e.code, "  " ++ e.message] ++ marked ++ hint) ++ "\n"

end Parlance.Cli

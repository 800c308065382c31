/-
  The texts of `--help`, `-h` and `--version`. `command` is the name of the program.
-/

namespace Parlance.Cli

/-- The version. -/
def versionText : String := "krikata 0.1.0\n"

/-- What both help texts start with. -/
def helpHead (command : String) : String :=
  "Run a program written in a krikata command language.\n\n" ++
    "Usage: " ++ command ++ " [OPTIONS] [PROGRAM]...\n\n"

/-- The long help text. -/
def longHelp (command : String) : String :=
  helpHead command ++
    "Arguments:\n" ++
    "  [PROGRAM]...\n" ++
    "          The program, one token per argument\n\n" ++
    "Options:\n" ++
    "      --grammar\n" ++
    "          Print the language's grammar and exit\n\n" ++
    "      --trace\n" ++
    "          Print the parse trace before the result\n\n" ++
    "      --trace-format <TRACE_FORMAT>\n" ++
    "          How to print the parse trace\n\n" ++
    "          Possible values:\n" ++
    "          - text: Plain token tree, then the type-tagged tree\n" ++
    "          - json: The trace as a JSON document\n" ++
    "          \n" ++
    "          [default: text]\n\n" ++
    "      --diagnostics\n" ++
    "          Report errors with the program text and a pointer at the failing token\n\n" ++
    "      --repl\n" ++
    "          Read programs line by line from stdin instead\n\n" ++
    "  -h, --help\n" ++
    "          Print help (see a summary with '-h')\n\n" ++
    "  -V, --version\n" ++
    "          Print version\n"

/-- The short help text. -/
def shortHelp (command : String) : String :=
  helpHead command ++
    "Arguments:\n" ++
    "  [PROGRAM]...  The program, one token per argument\n\n" ++
    "Options:\n" ++
    "      --grammar                      Print the language's grammar and exit\n" ++
    "      --trace                        Print the parse trace before the result\n" ++
    "      --trace-format <TRACE_FORMAT>  How to print the parse trace [default: text] " ++
    "[possible values: text, json]\n" ++
    "      --diagnostics                  Report errors with the program text and a pointer " ++
    "at the failing token\n" ++
    "      --repl                         Read programs line by line from stdin instead\n" ++
    "  -h, --help                         Print help (see more with '--help')\n" ++
    "  -V, --version                      Print version\n"

end Parlance.Cli

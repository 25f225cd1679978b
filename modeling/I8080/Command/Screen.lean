import I8080.Text.Painter

namespace I8080

def versionText : String :=
  "0.1.0"

def logoText : String :=
  "
         _              ___   ___
   ___  (_)  __ _      ( _ ) / _ \\
  (_-< / /  /  ' \\    / _  |/ // /
 /___//_/  /_/_/_/    \\___/ \\___/ "

/-- What is shown when nothing is asked for. -/
def bannerText (painter : Painter) : String :=
  "\n~ sim80 v" ++ versionText ++ " - Copyright (c) 2024 Artemis Rosman ~\n" ++ painter.paint .logo logoText ++ "

Welcome to sim80, an assembler and single-step interpreter
for Intel 8080 assembly code.
Please use `-h` or `--help` to access the usage instructions and documentation.

"

def helpText : String :=
  "sim80 assembles and single-steps programs for the Intel 8080

Usage: sim80 [PATH] [COMMAND]

Commands:
  run      Run text `.asm` or binary `.bin` file until it halts and print the final state
  compile  Create binary `.bin` memory image to run later
  check    Check a `.asm` file without running or outputting binary
  dump     Print the address, bytes and instruction of every assembled line
  watch    Place a watch on a `.asm` file to receive constant assembler updates
  help     Print this message or the help of the given subcommand(s)

Arguments:
  [PATH]  Quickly provide a `.asm` file to run

Options:
  -h, --help     Print help
  -V, --version  Print version
"

end I8080

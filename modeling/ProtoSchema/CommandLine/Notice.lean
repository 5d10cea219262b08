/-!
What the command tells about itself: how it is used, and its version.
-/

namespace ProtoSchema.CommandLine

inductive Notice where
  | help
  | version
deriving DecidableEq

namespace Notice

/-- The flag that asks for the notice. -/
def shown : Notice → String
  | .help => "--help"
  | .version => "--version"

def usage : List String :=
  ["Resolve, parse and link protobuf schemas over a virtual source tree",
   "",
   "Usage: protoimport [OPTIONS] [ROOTS]...",
   "",
   "Arguments:",
   "  [ROOTS]...  Root files: virtual paths, or disk paths under a mapped root",
   "",
   "Options:",
   "  -I, --map <PREFIX=ROOT>    Map a virtual prefix onto a directory: `PREFIX=ROOT`, or just " ++
     "`ROOT` for the empty prefix. Later mappings win on equal prefixes",
   "      --all                  Compile every schema file reachable through the mappings",
   "      --message <NAME>       Print the fields of one message (full name, or `..Name` to " ++
     "search by simple name)",
   "      --json                 Print the summary as JSON",
   "      --format <FORMAT>      Diagnostic layout [default: rich] [possible values: short, rich]",
   "      --no-color             Disable colored diagnostics",
   "      --warn-unused-imports  Warn about imports nothing refers to",
   "  -h, --help                 Print help",
   "  -V, --version              Print version"]

def text : Notice → String
  | .help => String.join (usage.map (· ++ "\n"))
  | .version => "protoimport 0.1.0\n"

end Notice

end ProtoSchema.CommandLine

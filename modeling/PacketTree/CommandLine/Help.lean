import PacketTree.CommandLine.Arguments

/-!
# Help

What the program tells about itself and its options.
-/

namespace PacketTree.CommandLine

/-- How to call the program, and what its options mean. -/
def helpText : String :=
  "Usage: layershark [-v] pcap dissect <INPUT> (-o <REPORT> | --stdout) [OPTIONS]\n\n" ++
  "Takes a .pcap or .pcapng file apart and writes a JSON report.\n\n" ++
  "Options:\n" ++
  "  -o, --report <REPORT>            Path of the report\n" ++
  "      --stdout                     Write the report to the standard output\n" ++
  "      --pretty                     Indent the report\n" ++
  "      --quiet                      Tell nothing but errors\n" ++
  "      --config <CONFIG>            File with session settings (JSON)\n" ++
  "      --concurrency <CONCURRENCY>  Number of contexts, 0 for what the machine has\n" ++
  "      --confidence <CONFIDENCE>    Drop layers below this confidence (0.0 - 1.0)\n" ++
  "      --midstream                  Put streams together without their start\n" ++
  "  -v, --verbose                    Tell more about the work\n" ++
  "  -h, --help                       Print this text\n" ++
  "  -V, --version                    Print the version\n"

/-- The name of the program and its version. -/
def versionText : String := "layershark 0.1.0\n"

/-- The exit code where nothing is done. -/
def Stop.code : Stop → Nat
  | .help | .version => 0
  | .misuse => 2

/-- What is told where nothing is done. -/
def Stop.text : Stop → String
  | .help | .misuse => helpText
  | .version => versionText

end PacketTree.CommandLine

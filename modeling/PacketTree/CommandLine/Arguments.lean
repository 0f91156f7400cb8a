import PacketTree.Numeric.Numeral

/-!
# Arguments

The words of a command line: commands, then options and the operand of the last command. They are
read from left to right, and the first word that asks for help or makes no sense ends the reading.

## The model

A `Draft` is what is known behind some of the words. `Draft.step` takes one word more, so reading is
a fold over the words, and `Draft.finish` looks for what is missing in the end.
-/

namespace PacketTree.CommandLine

/-- The commands. -/
inductive Command where
  /-- The program itself. -/
  | program
  /-- Work on capture files. -/
  | pcap
  /-- Take a capture file apart. -/
  | dissect
  /-- Tell about a command. -/
  | help
deriving DecidableEq, Repr

/-- Options without a value. -/
inductive Switch where
  /-- Tell how to use a command. -/
  | help
  /-- Tell the version of the program. -/
  | version
  /-- Tell more about the work. -/
  | verbose
  /-- Write the report to the standard output. -/
  | stdout
  /-- Indent the report. -/
  | pretty
  /-- Tell nothing but errors. -/
  | quiet
  /-- Streams may start in the middle of a connection. -/
  | midstream
deriving DecidableEq, Repr

/-- Options with a value. -/
inductive ValueOption where
  /-- The path of the report. -/
  | report
  /-- The path of the settings. -/
  | config
  /-- The number of contexts. -/
  | concurrency
  /-- The confidence that a layer needs. -/
  | confidence
deriving DecidableEq, Repr

/-- Why nothing is done. -/
inductive Stop where
  /-- Help is asked for. -/
  | help
  /-- The version is asked for. -/
  | version
  /-- The words make no sense. -/
  | misuse
deriving DecidableEq, Repr

/-- What a capture file is taken apart with. -/
structure Arguments where
  /-- The path of the capture file, or a pattern for it. -/
  input : String
  /-- The path of the report; without one it goes to the standard output. -/
  report : Option String
  /-- Indent the report. -/
  pretty : Bool
  /-- Tell nothing but errors. -/
  quiet : Bool
  /-- Tell more about the work. -/
  verbose : Bool
  /-- The path of the settings. -/
  config : Option String
  /-- The number of contexts, in place of what the settings say. -/
  concurrency : Option UInt64
  /-- The threshold, in place of what the settings say. -/
  confidence : Option Double
  /-- Streams may start in the middle of a connection, whatever the settings say. -/
  midstream : Bool
deriving DecidableEq, Repr

/-- An option. -/
inductive OptionName where
  /-- It stands alone. -/
  | switch (s : Switch)
  /-- A value belongs to it. -/
  | value (v : ValueOption)
deriving DecidableEq, Repr

namespace Command

/-- The command of a name within another command. -/
def inner? : Command → String → Option Command
  | .program, "pcap" => some .pcap
  | .pcap, "dissect" => some .dissect
  | .program, "help" | .pcap, "help" => some .help
  | _, _ => none

/-- The long names of the options of a command. -/
def longNames : Command → List (String × OptionName)
  | .program =>
    [("verbose", .switch .verbose), ("help", .switch .help), ("version", .switch .version)]
  | .pcap => [("verbose", .switch .verbose), ("help", .switch .help)]
  | .dissect =>
    [("verbose", .switch .verbose), ("help", .switch .help), ("stdout", .switch .stdout),
      ("pretty", .switch .pretty), ("quiet", .switch .quiet), ("midstream", .switch .midstream),
      ("report", .value .report), ("config", .value .config),
      ("concurrency", .value .concurrency), ("confidence", .value .confidence)]
  | .help => []

/-- The letters of the options of a command. -/
def letters : Command → List (Char × OptionName)
  | .program => [('v', .switch .verbose), ('h', .switch .help), ('V', .switch .version)]
  | .pcap => [('v', .switch .verbose), ('h', .switch .help)]
  | .dissect => [('v', .switch .verbose), ('h', .switch .help), ('o', .value .report)]
  | .help => []

end Command

/-- What is known behind some of the words. -/
structure Draft where
  /-- The command that the next word belongs to. -/
  command : Command := .program
  /-- Help is asked for, and the words left name the command. -/
  describing : Bool := false
  /-- The next word is the value of this option. -/
  awaiting : Option ValueOption := none
  /-- No more options come. -/
  literal : Bool := false
  /-- The switches of the command so far. -/
  given : List Switch := []
  /-- Some command was asked to tell more. -/
  verbose : Bool := false
  /-- The operand. -/
  input : Option String := none
  /-- The path of the report. -/
  report : Option String := none
  /-- The path of the settings. -/
  config : Option String := none
  /-- The number of contexts. -/
  concurrency : Option UInt64 := none
  /-- The threshold. -/
  confidence : Option Double := none
deriving DecidableEq, Repr

namespace Draft

/-- A value for something that has none yet. -/
def fillIn {α : Type} (old : Option α) (value : Option α) : Except Stop (Option α) :=
  match old, value with
  | none, some x => .ok (some x)
  | _, _ => .error .misuse

/-- The path that a word names; the empty word names none. -/
def path? (word : String) : Option String := if word = "" then none else some word

/-- The draft with the value of an option. No option is given twice. -/
def set (d : Draft) (v : ValueOption) (word : String) : Except Stop Draft :=
  match v with
  | .report => (fillIn d.report (path? word)).map fun x => { d with report := x }
  | .config => (fillIn d.config (path? word)).map fun x => { d with config := x }
  | .concurrency =>
    (fillIn d.concurrency (Numeral.word? word)).map fun x => { d with concurrency := x }
  | .confidence =>
    (fillIn d.confidence (Numeral.double? word)).map fun x => { d with confidence := x }

/-- The draft with a switch. -/
def turnOn (d : Draft) (s : Switch) : Except Stop Draft :=
  match s with
  | .help => .error .help
  | .version => .error .version
  | s =>
    if s ∈ d.given then .error .misuse
    else .ok { d with given := s :: d.given, verbose := d.verbose || s = .verbose }

/-- The draft with the operand. -/
def operand (d : Draft) (word : String) : Except Stop Draft :=
  if d.command ≠ .dissect then .error .misuse
  else (fillIn d.input (path? word)).map fun x => { d with input := x }

/-- A word that starts like an option. -/
def isOption (word : String) : Bool :=
  match word.toList with
  | '-' :: _ :: _ => true
  | _ => false

/-- The draft behind an option with a long name, with its value behind an equals sign or in the next
word. -/
def long (d : Draft) (s : List Char) : Except Stop Draft :=
  let name := s.takeWhile (· ≠ '=')
  match d.command.longNames.lookup (String.ofList name), s.dropWhile (· ≠ '=') with
  | none, _ => .error .misuse
  | some (.switch s), [] => d.turnOn s
  | some (.switch _), _ :: _ => .error .misuse
  | some (.value v), [] => .ok { d with awaiting := some v }
  | some (.value v), _ :: value => d.set v (String.ofList value)

/-- The draft behind options of one letter each. What follows the letter of an option with a value is
that value, behind an equals sign if one likes. -/
def short (d : Draft) : List Char → Except Stop Draft
  | [] => .ok d
  | c :: rest =>
    match d.command.letters.lookup c with
    | none => .error .misuse
    | some (.switch s) =>
      match d.turnOn s with
      | .ok d => short d rest
      | .error e => .error e
    | some (.value v) =>
      match rest with
      | [] => .ok { d with awaiting := some v }
      | '=' :: value => d.set v (String.ofList value)
      | value => d.set v (String.ofList value)

/-- The draft behind a word that is no option: the name of a command, or the operand. -/
def plain (d : Draft) (word : String) : Except Stop Draft :=
  match d.command.inner? word with
  | some .help => .ok { d with describing := true }
  | some c => .ok { d with command := c, given := [] }
  | none => d.operand word

/-- The draft behind a word. -/
def step (d : Draft) (word : String) : Except Stop Draft :=
  if d.describing then
    match d.command.inner? word with
    | some c => .ok { d with command := c }
    | none => .error .misuse
  else
    match d.awaiting with
    | some v => if isOption word then .error .misuse else { d with awaiting := none }.set v word
    | none =>
      if d.literal then d.operand word
      else
        match word.toList with
        | ['-', '-'] => .ok { d with literal := true }
        | '-' :: '-' :: name => d.long name
        | '-' :: c :: letters => d.short (c :: letters)
        | _ => d.plain word

/-- What the words ask for. The report goes either into a file or to the standard output. -/
def finish (d : Draft) : Except Stop Arguments :=
  if d.describing then .error .help
  else
    match d.command, d.awaiting, d.input with
    | .dissect, none, some input =>
      if d.report.isSome = decide (.stdout ∈ d.given) then .error .misuse
      else
        .ok
          { input := input
            report := d.report
            pretty := .pretty ∈ d.given
            quiet := .quiet ∈ d.given
            verbose := d.verbose
            config := d.config
            concurrency := d.concurrency
            confidence := d.confidence
            midstream := .midstream ∈ d.given }
    | _, _, _ => .error .misuse

end Draft

/-- What the words of a command line ask for. -/
def Arguments.parse (words : List String) : Except Stop Arguments :=
  (words.foldlM Draft.step ({} : Draft)).bind Draft.finish

end PacketTree.CommandLine

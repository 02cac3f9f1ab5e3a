import CommitGraph.Command.Basic

namespace CommitGraph

namespace Help

def programName : String := "loggraph"

def table (entries : List (String × String)) : List String :=
  let width := (entries.map (·.1.length)).max?.getD 0
  entries.map fun (name, about) =>
    "  " ++ name ++ String.ofList (List.replicate (width + 2 - name.length) ' ') ++ about

def commandAbout : CommandName → String
  | .draw => "Draw the history of a git repository"
  | .drawLog => "Draw a `timestamp|-hash|-parents` log file"
  | .count => "Print graph statistics for a git repository"

def about : Option CommandName → String
  | none => "Draw the commit graph of a repository or a text log"
  | some c => commandAbout c

def usage : Option CommandName → String
  | none => "[OPTIONS] <COMMAND>"
  | some .draw => "show [OPTIONS] [PATH]"
  | some .drawLog => "text [OPTIONS] <FILE>"
  | some .count => "stats [OPTIONS] [PATH]"

def places : Option CommandName → List (String × String)
  | none => []
  | some .drawLog => [("<FILE>", "Log file")]
  | some _ => [("[PATH]", "Path to the repository [default: .]")]

def limitEntry : String × String := ("-l, --limit <LIMIT>", "Number of commits to load")

def displayEntries : List (String × String) :=
  [("    --long-edges", "Draw long edges through every row"),
   ("    --collapse", "Collapse every linear stretch of history"),
   ("    --ascii", "Draw with ASCII characters only"),
   ("    --no-color", "Disable colors")]

def commonEntries : List (String × String) :=
  [("    --config <CONFIG>", "TOML configuration file"),
   ("-v, --verbose...", "More log output on stderr (repeat for more)"),
   ("-h, --help", "Print help")]

def ownEntries : Option CommandName → List (String × String)
  | none => []
  | some .draw => limitEntry :: displayEntries
  | some .drawLog =>
    ("    --ref <NAME=HASH>", "Reference to place on a commit; every head gets one when omitted")
      :: displayEntries
  | some .count => [limitEntry]

def commands : Option CommandName → List (String × String)
  | none =>
    ([.draw, .drawLog, .count].map fun c => (c.word, commandAbout c))
      ++ [("help", "Print this message or the help of the given subcommand(s)")]
  | some _ => []

def titled (title : String) (entries : List (String × String)) : List String :=
  if entries.isEmpty then [] else "" :: title :: table entries

def usageLine (c : Option CommandName) : String := "Usage: " ++ programName ++ " " ++ usage c

def text (c : Option CommandName) : String :=
  String.join (([about c, "", usageLine c] ++ titled "Commands:" (commands c)
    ++ titled "Arguments:" (places c) ++ titled "Options:" (ownEntries c ++ commonEntries)).map
      (· ++ "\n"))

def complaint : UsageError → String
  | .nothingGiven | .missingCommand => "a subcommand is required"
  | .unknownCommand w => "unrecognized subcommand '" ++ w ++ "'"
  | .unknownArgument w => "unexpected argument '" ++ w ++ "' found"
  | .missingValue | .emptyValue => "a value is required for an argument but none was supplied"
  | .badNumber w => "invalid value '" ++ w ++ "': not a number"
  | .repeated => "an argument cannot be used multiple times"
  | .unwantedValue w => "unexpected value '" ++ w ++ "' for an argument that takes none"
  | .missingFile => "the following required arguments were not provided: <FILE>"
  | .help _ => "help was asked for"

end Help

end CommitGraph

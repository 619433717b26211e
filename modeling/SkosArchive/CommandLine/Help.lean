import SkosArchive.CommandLine.Form

namespace SkosArchive.CommandLine

def programName : String := "termgraph"

def versionText : String := programName ++ " 0.1.0\n"

/-- A line of a list in the help: what is explained, and the explanation. -/
structure Entry where
  label : String
  help : String

def padTo (width : Nat) (s : String) : String :=
  s ++ String.ofList (List.replicate (width - s.length) ' ')

/-- The explanations stand in one column, two blanks behind the longest label. -/
def listing (title : String) (entries : List Entry) : String :=
  let width := entries.foldl (fun w e => if w < e.label.length then e.label.length else w) 0
  title ++ ":\n" ++
    String.join (entries.map fun e => "  " ++ padTo (width + 2) e.label ++ e.help ++ "\n")

def operandText (o : Operand) : String := "<" ++ o.name ++ ">" ++ if o.many then "..." else ""

def flagEntry (f : Flag) : Entry := ⟨"    --" ++ f.long ++ " <" ++ f.valueName ++ ">", f.help⟩

def commandEntries (f : Form) : List Entry :=
  (f.subforms.map fun g => ⟨g.name, g.about⟩) ++
    [⟨"help", "Print this message or the help of the given subcommand(s)"⟩]

/-- The options of the command come first. -/
def optionEntries (f : Form) : List Entry :=
  (f.flags ++ sharedFlags).map flagEntry ++
    [⟨"-v, --verbose...", "Increase log verbosity (-v info, -vv debug, -vvv trace)"⟩,
      ⟨"-h, --help", "Print help"⟩] ++
    if f.path.isEmpty then [⟨"-V, --version", "Print version"⟩] else []

def usageLine (f : Form) : String :=
  "Usage: " ++ " ".intercalate (programName :: f.path) ++ " [OPTIONS] " ++
    (match f.operand with
      | some o => operandText o
      | none => "<COMMAND>")

def helpText (f : Form) : String :=
  f.about ++ "\n\n" ++ usageLine f ++ "\n\n" ++
    (match f.operand with
      | some o => listing "Arguments" [⟨operandText o, ""⟩]
      | none => listing "Commands" (commandEntries f)) ++
    "\n" ++ listing "Options" (optionEntries f)

/-- The help for the word `help` among the commands of `f`. -/
def helpTextOfHelp (f : Form) : String :=
  "Print this message or the help of the given subcommand(s)\n\nUsage: " ++
    " ".intercalate (programName :: f.path) ++ " help [COMMAND]...\n\n" ++
    listing "Arguments" [⟨"[COMMAND]...", "Print help for the subcommand(s)"⟩]

end SkosArchive.CommandLine

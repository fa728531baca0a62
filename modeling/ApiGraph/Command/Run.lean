import ApiGraph.Command.Arguments
import ApiGraph.Compile

/-!
Running a command on a file system: what it prints, its exit code, and the files afterwards.
-/

namespace ApiGraph

/-- What a run of the program leaves behind. -/
structure Outcome where
  exitCode : Nat
  output : String := ""
  /-- The message of the failure, if the command failed. -/
  error : Option String := none
  /-- How the program is called, to be shown when it was called otherwise. -/
  usage : Option String := none
  files : FileTree

namespace Command

def usage : String :=
  "Compiles an API description, in one file or in several, into a graph of its model\n\n" ++
  "Usage: specgraph [--log-level LEVEL] COMMAND\n\n" ++
  "Commands:\n" ++
  "  compile INPUT [-o OUTPUT] [-c CONFIG]           merge and compile a document\n" ++
  "  merge INPUT [-o OUTPUT]                         inline every cross-file reference\n" ++
  "  merge-sources MASTER SOURCES... [-o OUTPUT]     rebuild a master document\n"

def version : String := "specgraph 0.1.0\n"

/-- Saves a document, or prints it when no file is given. -/
def emit (files : FileTree) (output : Option Path) (document : Json) :
    Except Report (String × FileTree) :=
  match output with
  | some path => (saveDocument files path document).map ("", ·)
  | none => .ok (document.indented ++ "\n", files)

/-- What a command prints, and the files after it. -/
def run (files : FileTree) : Command → Except Report (String × FileTree)
  | .compile input output file => do
    let options ← optionsFor files input file
    let graph ← ApiGraph.compile files input options
    emit files output graph.toJson
  | .merge input output => do
    let merged ← mergeFile files input
    emit files output merged.document
  | .mergeSources master sources output => do
    emit files output (← combine files master sources)

end Command

/-- Runs the program with the given arguments. -/
def runProgram (files : FileTree) (arguments : List String) : Outcome :=
  match Request.ofArguments arguments with
  | .help => { exitCode := 0, output := Command.usage, files }
  | .version => { exitCode := 0, output := Command.version, files }
  | .misuse => { exitCode := 2, usage := some Command.usage, files }
  | .run command =>
    match command.run files with
    | .ok (output, files) => { exitCode := 0, output, files }
    | .error report => { exitCode := 1, error := some report.message, files }

end ApiGraph

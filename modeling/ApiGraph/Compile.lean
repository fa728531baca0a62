import ApiGraph.Build.Graph
import ApiGraph.Merge.Sources
import ApiGraph.Options.File

/-!
The operations of the library on files, each with its failures reported: finding the options,
merging a file, combining several, compiling one to a graph, and saving documents and graphs.
-/

namespace ApiGraph

/-- The options for a document. -/
def optionsFor (files : FileTree) (input : Path) (file : Option Path) : Except Report Options :=
  reported .config (Options.forInput files input file)

/-- Brings everything that a document refers to in other files into the document. -/
def mergeFile (files : FileTree) (input : Path) : Except Report Merged :=
  reported .merge ((Merge.file input).run.run (Resolver.fresh files)).1

/-- Combines documents into the skeleton of a master. -/
def combine (files : FileTree) (master : Path) (sources : List Path) : Except Report Json :=
  reported .merge (Merge.sources files master sources)

/-- Builds the graph of a document without references to other files. -/
def compileDescription (files : FileTree) (d : Description) (options : Options) :
    Except Report Graph :=
  reported .build (Build.graph files d options)

/-- Merges a document and builds its graph. -/
def compile (files : FileTree) (input : Path) (options : Options) : Except Report Graph := do
  let merged ← mergeFile files input
  compileDescription files ⟨merged.document, merged.path⟩ options

/-- Saves a document in the format of its file name. -/
def saveDocument (files : FileTree) (path : Path) (document : Json) : Except Report FileTree :=
  reported .load (files.save path document)

def saveGraph (files : FileTree) (path : Path) (graph : Graph) : Except Report FileTree :=
  saveDocument files path graph.toJson

end ApiGraph

import MergedWork.CommandLine.Arguments
import MergedWork.CommandLine.Failure
import MergedWork.CommandLine.Report

/-!
# Running a command

A run takes its arguments and the archives of all directories, and gives its output, its exit code
and the archives after it. The exit code is 0, or 1 for a command that failed, or 2 for arguments
that stand for no command.
-/

namespace MergedWork.CommandLine

/-- The archives, each by the name of its directory. -/
abbrev Directories := List (String × Archive)

/-- The archive of a directory, which is empty before it is first stored. -/
def Directories.archive (ds : Directories) (name : String) : Archive := (ds.lookup name).getD .empty

/-- Stores the archive of a directory. -/
def Directories.store (ds : Directories) (name : String) (a : Archive) : Directories :=
  (name, a) :: ds.filter fun d => d.1 ≠ name

/-- What a run leaves behind. -/
structure Outcome where
  code : UInt32
  output : String
  errors : String
  directories : Directories

/-- The outcome of a command that prints a report and stores nothing. -/
def Outcome.report (ds : Directories) (output : String) : Outcome := ⟨0, output, "", ds⟩

/-- The outcome of a command that failed. -/
def Outcome.failure (ds : Directories) (error : String) : Outcome :=
  ⟨1, "", "Error: " ++ error ++ "\n", ds⟩

/-- The outcome of arguments that stand for no command. -/
def Outcome.usage (ds : Directories) : Outcome := ⟨2, "", "", ds⟩

/-- Opens the archive of a directory, reports its tip, and stores it again. -/
def openIndex (n : Network) (ds : Directories) (name : String) : Outcome :=
  let archive := ds.archive name
  match archive.loadState n.params with
  | .error e => .failure ds (archiveFailure e)
  | .ok state => ⟨0, tipReport state, "", ds.store name (archive.saveState state)⟩

/-- Runs a request. -/
def Request.run (r : Request) (ds : Directories) : Outcome :=
  match r.command with
  | .genesis =>
    if r.network.startsWith r.network.genesis then .report ds (genesisReport r.network)
    else
      .failure ds ("\"genesis block of " ++ r.network.name ++ " does not match its known hash\"")
  | .params => .report ds (paramsReport r.network.params)
  | .checkpoints => .report ds (checkpointsReport r.network.checkpoints)
  | .index directory => openIndex r.network ds directory
  | .decodeProof algorithm hex =>
    match MergeProof.ofHex hex algorithm with
    | .ok proof => .report ds (proofReport proof)
    | .error e => .failure ds (decodeFailure e)

/-- Runs the command that the arguments stand for. -/
def run (arguments : List String) (ds : Directories) : Outcome :=
  match Request.parse arguments with
  | none => .usage ds
  | some r => r.run ds

end MergedWork.CommandLine

import Parlance.Cli.Commands
import Parlance.Cli.Report

/-
  The program itself: `calc` or `toolbox`, and then the command line of that language. Everything
  that is printed comes from `Parlance.Cli`; what is done here is reading lines, printing, and
  fetching and storing the files that a program of the toolbox names.
-/

namespace Parlance.Cli

/-- How the world of a language is fetched before a program is run and stored after it. -/
structure Outside (W : Type) where
  fetch : List String → W → IO W
  store : W → W → IO Unit

/-- A world that is kept in memory. -/
def Outside.inMemory {W : Type} : Outside W := ⟨fun _ w => pure w, fun _ _ => pure ()⟩

/-- What an opened place holds; what can be opened but not read is a directory. -/
def readEntry (handle : IO.FS.Handle) : IO Entry := do
  try
    let bytes ← handle.readBinToEnd
    return .file bytes
  catch _ =>
    return .directory

/-- Takes up what stands at a place, if it can be opened. -/
def fetchPlace (fs : FileStore) (place : Place) : IO FileStore := do
  try
    let handle ← IO.FS.Handle.mk place.text .read
    let entry ← readEntry handle
    return fs.put place entry
  catch _ =>
    return fs

/-- Takes up everything on the paths that the words may be. -/
def fetchFiles (words : List String) (_ : FileStore) : IO FileStore := do
  let paths := words.filterMap fun word => (Path.read word).toOption
  let places := paths.flatMap fun path =>
    FileStore.trail path.start (path.way ++ path.last.toList)
  places.foldlM fetchPlace .empty

/-- Writes the files that have changed. -/
def storeFiles (before after : FileStore) : IO Unit := do
  for (place, entry) in after.entries do
    match entry, before.entry? place with
    | .file bytes, some (.file old) =>
      if bytes.data ≠ old.data then IO.FS.writeBinFile place.text bytes
    | .file bytes, _ => IO.FS.writeBinFile place.text bytes
    | .directory, _ => pure ()

/-- Reads and runs lines until the input ends or the session is left. -/
partial def readLines {ι W V : Type} (app : App ι W V) (outside : Outside W) (w : W) :
    IO Unit := do
  let stdout ← IO.getStdout
  stdout.putStr App.prompt
  stdout.flush
  let line ← (← IO.getStdin).getLine
  if line.isEmpty then stdout.putStrLn ""
  else
    let w ← outside.fetch (Text.words line) w
    let (r, w') := app.respond line w
    outside.store w w'
    stdout.putStr r.stdout
    (← IO.getStderr).putStr r.stderr
    unless r.quit do readLines app outside w'

/-- Runs a command line and gives the exit code. -/
def runCommand {ι W V : Type} (app : App ι W V) (outside : Outside W) (w : W) (args : List String) :
    IO UInt32 := do
  match Options.parse args with
  | .error (.help long) =>
    IO.print (if long then longHelp app.command else shortHelp app.command)
    return 0
  | .error .version =>
    IO.print versionText
    return 0
  | .error refusal =>
    IO.eprintln ("error: " ++ refusal.message)
    return 2
  | .ok o =>
    if o.repl then
      IO.print app.greeting
      readLines app outside w
      return 0
    let w ← outside.fetch o.program w
    let (t, w') := app.session o [] w
    outside.store w w'
    IO.print t.stdout
    IO.eprint t.stderr
    match t.ending with
    | .success => return 0
    | .failure error asReport =>
      if asReport then IO.eprint (report o.program error)
      return 1

end Parlance.Cli

open Parlance.Cli in
/-- Runs the language that the first argument names. -/
def main (args : List String) : IO UInt32 := do
  match args with
  | "calc" :: rest =>
    let seed ← IO.rand 0 (Nat.pow 2 62)
    runCommand calculator .inMemory ⟨seed.toUInt64⟩ rest
  | "toolbox" :: rest => runCommand toolbox ⟨fetchFiles, storeFiles⟩ .empty rest
  | _ =>
    IO.eprintln "usage: (calc | toolbox) [OPTIONS] [PROGRAM]..."
    return 2

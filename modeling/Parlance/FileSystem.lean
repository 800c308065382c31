import Parlance.Job

/-
  The files outside. A file system is given by what it answers when a file is read and when one is
  written, and by the state that it is left in; nothing is known of what stands behind it. The job
  that asks it does nothing before it is driven, and a fault is its failure.
-/

namespace Parlance

/-- A file system with states in `S`. A fault is told by its text. -/
structure FileSystem (S : Type) where
  /-- Reads the file at a path as text. -/
  readText (path : String) : S → Except String String × S
  /-- Creates the file at a path with the text, or replaces its contents. -/
  writeText (path text : String) : S → Except String Unit × S

namespace FileSystem

variable {S V α : Type}

/-- Asks the file system once the work is driven. -/
def ask (f : S → Except String α × S) : Job S V α :=
  (Job.sleep 0).bind fun _ => Job.perform fun s =>
    let (answer, s) := f s
    (answer.mapError .io, s)

/-- Reads a file. -/
def read (files : FileSystem S) (path : String) : Job S V String := ask (files.readText path)

/-- Writes a file. -/
def write (files : FileSystem S) (path text : String) : Job S V Unit :=
  ask (files.writeText path text)

end FileSystem

end Parlance

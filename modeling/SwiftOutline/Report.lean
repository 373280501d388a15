import SwiftOutline.Diagnostic

/-!
# SwiftOutline.Report

Diagnostics together with the files they are about.

* `addFile` — files are numbered from 0 in the order in which their names come up first; a name
  that is known keeps its number and its text;
* `fileId?`, `file?` — the number of a name, and the file of a number: the one is looked up in what
  is noted of names, the other in the files;
* `add`, `report`, `addFaults` — diagnostics, kept in order;
* `hasErrors` — whether any of them says that something is wrong.
-/

namespace SwiftOutline

/-- A file: its name and its text. -/
structure SourceText where
  name : String
  text : String
  deriving DecidableEq, Repr, Inhabited

namespace SourceText

/-- Put a file behind others; its number is how many there are before it. -/
def addTo (file : SourceText) (files : List SourceText) : Nat × List SourceText :=
  (files.length, files ++ [file])

end SourceText

/-- Files, by number, the numbers noted of their names, the last one noted first, and diagnostics
about them, in order. -/
structure Report where
  files : List SourceText
  numbers : List (String × Nat)
  diagnostics : List Diagnostic
  deriving DecidableEq, Repr, Inhabited

namespace Report

/-- No files and no diagnostics. -/
def empty : Report := ⟨[], [], []⟩

/-! ## files -/

/-- The number that is noted of a name. -/
def fileId? (r : Report) (name : String) : Option Nat := r.numbers.lookup name

/-- The file of a number. -/
def file? (r : Report) (id : Nat) : Option SourceText := r.files[id]?

/-- The number of the file of a name, which is added unless a number is noted of its name. -/
def addFile (r : Report) (name text : String) : Nat × Report :=
  match r.fileId? name with
  | some id => (id, r)
  | none =>
    let (id, files) := SourceText.addTo ⟨name, text⟩ r.files
    (id, { r with files := files, numbers := (name, id) :: r.numbers })

/-! ## diagnostics -/

/-- Add a diagnostic. -/
def add (r : Report) (d : Diagnostic) : Report :=
  { r with diagnostics := r.diagnostics ++ [d] }

/-- Add what an error is reported as in a file. -/
def report (r : Report) (error : Nat → Diagnostic) (file : Nat) : Report := r.add (error file)

/-- Add the faults of a source text, which are about a file. -/
def addFaults (r : Report) (faults : List (Fault × Span)) (file : Nat) : Report :=
  faults.foldl (fun r f => r.report (.ofFault f) file) r

/-- How many diagnostics there are. -/
def size (r : Report) : Nat := r.diagnostics.length

/-- Whether there are no diagnostics. -/
def isEmpty (r : Report) : Bool := r.diagnostics.isEmpty

/-- Whether something is wrong. -/
def hasErrors (r : Report) : Bool := r.diagnostics.any (·.severity.isFailure)

end Report

end SwiftOutline

import SwiftOutline.Declaration.Placement
import SwiftOutline.Parse

/-!
# SwiftOutline.Diagnostic

What is reported of a source text: how severe it is, a message, notes, and the place that it is
about.

* `Severity`, `Place`, `Diagnostic`;
* `Diagnostic.ofFault`, `Diagnostic.ofMisplaced` — what faults and misplaced nodes are reported
  as.
-/

namespace SwiftOutline

/-- How severe a diagnostic is. -/
inductive Severity where
  | bug
  | error
  | warning
  | note
  | help
  deriving DecidableEq, Repr, Inhabited

namespace Severity

/-- All severities. -/
def all : List Severity := [bug, error, warning, note, help]

/-- The label a severity is shown under. -/
def label : Severity → String
  | bug => "Bug"
  | error => "Error"
  | warning => "Warning"
  | note => "Note"
  | help => "Help"

/-- The severity shown under a label. -/
def ofLabel? (s : String) : Option Severity := all.find? (·.label == s)

/-- The word that a rendered diagnostic starts with. -/
def word : Severity → String
  | bug => "bug"
  | error => "error"
  | warning => "warning"
  | note => "note"
  | help => "help"

/-- Whether something is wrong. -/
def isFailure : Severity → Bool
  | bug | error => true
  | _ => false

end Severity

/-- A place in a file, and what is said right there. -/
structure Place where
  file : Nat
  span : Span
  remark : String
  deriving DecidableEq, Repr, Inhabited

/-- A message about a source text. -/
structure Diagnostic where
  severity : Severity
  code : Option String
  message : String
  place : Option Place
  notes : List String
  deriving DecidableEq, Repr, Inhabited

namespace Diagnostic

/-- An error, at a place if it has one. -/
def ofError (message : String) (span : Option Span) (file : Nat) : Diagnostic :=
  ⟨.error, none, message, span.map fun s => ⟨file, s, ""⟩, []⟩

/-- What a fault is reported as. -/
def ofFault (f : Fault × Span) (file : Nat) : Diagnostic := ofError f.1.message (some f.2) file

/-- What a node out of place is reported as. -/
def ofMisplaced (m : Misplaced) (file : Nat) : Diagnostic :=
  ⟨.error, none, m.message, some ⟨file, m.range, m.note⟩, []⟩

end Diagnostic

end SwiftOutline

import SwiftOutline.Declaration.Reading
import SwiftOutline.Parse

/-!
# SwiftOutline.Analysis

What is known of a source text: the faults found while it was read, and the declarations of
the file.
-/

namespace SwiftOutline

/-- What is known of a source text. -/
structure Analysis where
  faults : List (Fault × Span)
  declarations : List Declaration
  deriving Inhabited

namespace Analysis

/-- Read a source text and collect its declarations. -/
def ofSource (c : Config) (source : String) : Analysis :=
  let p := parse source
  ⟨p.faults, Declaration.collectFile c p.tree⟩

/-- Whether no fault was found. -/
def isClean (a : Analysis) : Bool := a.faults.isEmpty

/-- The wordings of the faults. -/
def messages (a : Analysis) : List String := a.faults.map (·.1.message)

/-- The declarations at the top of the file, in source order. -/
def topLevel (a : Analysis) : List Declaration := Declaration.inSourceOrder a.declarations

end Analysis

end SwiftOutline

import SwiftOutline.Analysis
import SwiftOutline.Expectation.Fact

/-!
# SwiftOutline.Expectation

What a source text is expected to be: free of faults or not, with certain declarations at its
top, or with a declaration of certain facts.

* `Expectation.check` — whether an analysis meets an expectation, and if not, why;
* `Failure.message` — how that is said.
-/

namespace SwiftOutline

/-- What is expected of a source text. -/
inductive Expectation where
  | parses
  | hasFault (text : String)
  | faultCount (n : Nat)
  | topLevel (names : List String)
  /-- The declaration at a path has a kind and facts, and does not have others. -/
  | declares (path : String) (kind : Option DeclarationKind) (has hasNot : List Fact)
  deriving Repr, Inhabited

/-- Why an expectation is not met. -/
inductive Failure where
  | someFaults (n : Nat)
  | noFault
  | noFaultWith (text : String) (messages : List String)
  | wrongFaultCount (expected actual : Nat)
  | wrongTopLevel (expected actual : List String)
  | notFound (path : String)
  | wrongKind (path : String) (actual expected : DeclarationKind)
  | unmet (path : String) (fact : Fact) (reason : Unmet)
  | unwanted (path : String) (fact : Fact)
  deriving Repr, Inhabited

namespace Failure

/-- Why an expectation is not met, in words. -/
def reason : Failure → String
  | someFaults n =>
    "Expected the source to parse cleanly, but got " ++ toString n ++ " error(s)"
  | noFault => "Expected a parse error, but the source parsed cleanly"
  | noFaultWith text messages =>
    "Expected an error containing '" ++ text ++ "', but got: " ++ quotedList messages
  | wrongFaultCount expected actual =>
    "Expected " ++ toString expected ++ " error(s), but got " ++ toString actual
  | wrongTopLevel expected actual =>
    "Expected top-level declarations " ++ quotedList expected ++ ", but got " ++
      quotedList actual
  | notFound path => "Declaration '" ++ path ++ "' not found"
  | wrongKind path actual expected =>
    "Declaration '" ++ path ++ "' has kind " ++ actual.label ++ ", expected " ++ expected.label
  | unmet path fact why => why.message path fact
  | unwanted path fact =>
    "Declaration '" ++ path ++ "' should NOT have " ++ fact.text ++ ", but it does"

/-- How a failure is said. -/
def message (f : Failure) : String := "Expectation failed: " ++ f.reason

end Failure

namespace Expectation

/-- Whether a text occurs in another one. -/
def occursIn (needle : List Char) : List Char → Bool
  | [] => needle.isEmpty
  | c :: cs => needle.isPrefixOf (c :: cs) || occursIn needle cs

/-- The first failure among the facts that a declaration should have. -/
def checkFacts (path : String) (d : Declaration) (facts : List Fact) : Option Failure :=
  facts.findSome? fun f => (f.check d).map (.unmet path f)

/-- The first failure among the facts that a declaration should not have. -/
def checkNoFacts (path : String) (d : Declaration) (facts : List Fact) : Option Failure :=
  (facts.find? fun f => (f.check d).isNone).map (.unwanted path)

/-- The failure of a declaration to have a kind. -/
def checkKind (path : String) (d : Declaration) (kind : Option DeclarationKind) :
    Option Failure :=
  kind.bind fun k => if d.kind = k then none else some (.wrongKind path d.kind k)

/-- Why an analysis does not meet an expectation; none if it does. -/
def check (a : Analysis) : Expectation → Option Failure
  | parses => if a.isClean then none else some (.someFaults a.faults.length)
  | hasFault text =>
    if a.isClean then some .noFault
    else if a.messages.any fun m => occursIn text.toList m.toList then none
    else some (.noFaultWith text a.messages)
  | faultCount n =>
    if a.faults.length = n then none else some (.wrongFaultCount n a.faults.length)
  | topLevel names =>
    let actual := a.topLevel.map (·.name)
    if actual = names then none else some (.wrongTopLevel names actual)
  | declares path kind has hasNot =>
    match Declaration.atPath? path a.topLevel with
    | none => some (.notFound path)
    | some d =>
      ((checkKind path d kind).or (checkFacts path d has)).or (checkNoFacts path d hasNot)

end Expectation

end SwiftOutline

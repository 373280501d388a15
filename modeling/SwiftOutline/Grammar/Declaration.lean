import SwiftOutline.Grammar.Function
import SwiftOutline.Grammar.Member
import SwiftOutline.Grammar.Variable

/-!
# SwiftOutline.Grammar.Declaration

Declarations of all kinds, and the items of a scope.

* `atDeclaration` — whether a declaration stands next, behind attributes and modifiers;
* `form` — the kind of declaration that a keyword makes, and the rule for what follows;
* `declaration` — attributes, modifiers and the form, in one node;
* `itemsFrom` — the items up to the end of a scope, by recursion on the number of words.

A scope is a run of semicolons, declarations and statements. The words that end it are told
to conditional blocks too, so that one which is never closed ends with the scope around it.
-/

namespace SwiftOutline.Grammar

open Rule

variable {n : Nat}

/-! ## looking ahead -/

/-- Words that make a declaration of what they start. -/
def declarationWords : List Kind :=
  [.kwClass, .kwStruct, .kwEnum, .kwProtocol, .kwExtension, .kwFunc, .kwInit, .kwDeinit,
    .kwSubscript, .kwVar, .kwLet, .kwTypealias, .kwAssociatedtype, .kwImport, .kwOperator,
    .kwPrecedencegroup, .kwCase, .poundIf]

/-- Whether the keyword of a declaration stands next; `actor` is one before a name. -/
def atDeclarationWord (ws : List Word) : Bool :=
  atAny declarationWords ws || (atName ["actor"] ws && at? .identifier ws.tail)

/-- Whether a declaration stands next. -/
def atDeclaration (ws : List Word) : Bool :=
  atDeclarationWord (skipAttributesAndModifiers ws)

/-! ## declarations, given the rule for the items inside -/

section

variable (inside : List Kind → Rule n)

/-- A type with members, from its keyword on. -/
def nominal : Rule (n + 1) :=
  bump >>
    (identifierName >> genericParameters >> inheritance >> genericRequirements >>
      memberBlock inside)

/-- An extension, from its keyword on. -/
def extensionDeclaration : Rule (n + 1) :=
  bump >> (type >> inheritance >> genericRequirements >> memberBlock inside)

/-- Directives that start another branch of a conditional block or close it. -/
def branchEnds : List Kind := [.poundElseif, .poundElse, .poundEndif]

/-- The condition of a branch: what stands on the line of its directive, and at least one
word. -/
def condition : Rule n :=
  node .ifConfigCondition
    (ifAt atWord (bump >> whileAt (fun ws => !ws.head?.any (·.onNewLine)) done)
      (fault .noCondition))

/-- A branch of a conditional block. -/
def branch (stop : List Kind) : Rule (n + 1) :=
  node .ifConfigClause
    (ifAt (at? .poundElse) (after (inside (branchEnds ++ stop)))
      (after (condition >> inside (branchEnds ++ stop))))

theorem advances_branch (stop : List Kind) : Advances atWord (branch inside stop) :=
  ((advances_after _).ifAt (advances_after _)).node _

/-- Whether the directive of a branch stands next. -/
def atBranch : List Word → Bool := atAny [.poundIf, .poundElseif, .poundElse]

/-- A conditional block. -/
def conditionalBlock (stop : List Kind) : Rule (n + 1) :=
  many atBranch (branch inside stop) (advances_branch inside stop).of_atWord >>
    expect .poundEndif .unclosedConditionalBlock

/-- What stands where a declaration was announced and none is. -/
def noDeclaration : Rule n := fault .noDeclaration >> optional atWord bump

/-- The kind of declaration that the next word makes, and the rule from that word on. -/
def form (stop : List Kind) (ws : List Word) : Kind × Rule (n + 1) :=
  match kind? ws with
  | some .kwClass => (.classDecl, nominal inside)
  | some .kwStruct => (.structDecl, nominal inside)
  | some .kwEnum => (.enumDecl, nominal inside)
  | some .kwProtocol => (.protocolDecl, nominal inside)
  | some .kwExtension => (.extensionDecl, extensionDeclaration inside)
  | some .kwFunc => (.functionDecl, function inside)
  | some .kwInit => (.initializerDecl, initializerDeclaration inside)
  | some .kwDeinit => (.deinitializerDecl, deinitializer inside)
  | some .kwSubscript => (.subscriptDecl, subscript inside)
  | some .kwVar => (.variableDecl, bindings inside)
  | some .kwLet => (.variableDecl, bindings inside)
  | some .kwTypealias => (.typeAliasDecl, typeAlias)
  | some .kwAssociatedtype => (.associatedTypeDecl, associatedType)
  | some .kwImport => (.importDecl, importDeclaration)
  | some .kwOperator => (.operatorDecl, operatorDeclaration)
  | some .kwPrecedencegroup => (.precedenceGroupDecl, precedenceGroup)
  | some .kwCase => (.enumCaseDecl, enumCases)
  | some .poundIf => (.ifConfigDecl, conditionalBlock inside stop)
  | _ =>
    if atName ["actor"] ws then (.actorDecl, nominal inside) else (.error, noDeclaration)

theorem length_rest_form_lt (stop : List Kind) {ws : List Word} (h : ws.length < n + 1)
    (hw : atWord ws = true) : ((form inside stop ws).2 ws h).rest.length < ws.length := by
  unfold form
  split
  case h_18 hk =>
    refine Advances.seq (advances_many _) _ ws h ?_
    simp [atBranch, atAny, hk]
  case h_19 =>
    split
    · exact advances_bump.seq _ ws h hw
    · exact (advances_optional advances_bump).seq_right _ ws h hw
  all_goals exact advances_bump.seq _ ws h hw

/-- A declaration. -/
def declaration (stop : List Kind) : Rule (n + 1) := fun ws h =>
  let p := attributesAndModifiers ws h
  let f := form inside stop p.rest
  (p.append (f.2 p.rest (p.length_rest_lt h))).node f.1

theorem advances_declaration (stop : List Kind) :
    Advances atWord (declaration inside stop) := fun ws h hw => by
  have hp := (attributesAndModifiers ws h).length_rest_le
  rcases Nat.lt_or_ge (attributesAndModifiers ws h).rest.length ws.length with hlt | hge
  · exact Parsed.length_rest_append_lt hlt
  · have hf := length_rest_form_lt inside stop (Nat.lt_of_le_of_lt hp h)
      (atWord_of_length_le hw hge)
    exact Nat.lt_of_lt_of_le hf hp

/-- An item of a scope. -/
def item (stop : List Kind) : Rule (n + 1) :=
  ifAt (at? .semicolon) bump
    (ifAt atDeclaration (declaration inside stop) (statement stop))

theorem advances_item (stop : List Kind) : Advances (atOther stop) (item inside stop) := by
  have hw : ∀ ws, atOther stop ws = true → atWord ws = true := by simp +contextual [atOther]
  exact (advances_bump.mono hw).ifAt
    (((advances_declaration inside stop).mono hw).ifAt (advances_statement stop))

end

/-! ## scopes -/

/-- The items up to a word that ends the scope, or to the end. -/
def itemsFrom (stop : List Kind) (ws : List Word) : Parsed ws :=
  if hc : atOther stop ws = true then
    let p := item (fun stop r (_ : r.length < ws.length) => itemsFrom stop r) stop ws
      (Nat.lt_succ_self _)
    have : p.rest.length < ws.length := advances_item _ stop ws (Nat.lt_succ_self _) hc
    p.append (itemsFrom stop p.rest)
  else .done ws
  termination_by ws.length

/-- The items of a source file. -/
def fileItems (ws : List Word) : Parsed ws := itemsFrom [] ws

end SwiftOutline.Grammar

import SwiftOutline.Proofs.GoesOn

/-!
# SwiftOutline.Proofs.Commented

Commenting out a text that holds comments.

* `behindComment?` — what stands behind the mark that closes a comment;
* `IsClosedComment` — a text that is one block comment and is closed;
* `Neutral` — a text that leaves open as many comments as were open before it: plain texts and
  closed comments are neutral, and so is what they make up;
* `lex_commented` — closed comments between plain texts can be commented out, and the comment around
  them is closed too, so this can be done again to any depth.
-/

namespace SwiftOutline

namespace Lexeme

variable {outer : Nat} {cs body r rest : List Char}

/-! ## the end of a comment -/

/-- What stands behind the mark that closes a comment inside `outer` further ones; none if it is
never closed. -/
def behindComment? (outer : Nat) : List Char → Option (List Char)
  | [] => none
  | '/' :: '*' :: r => behindComment? (outer + 1) r
  | '*' :: '/' :: r =>
    match outer with
    | 0 => some r
    | outer + 1 => behindComment? outer r
  | _ :: r => behindComment? outer r

/-- A closed comment takes all but what stands behind it. -/
theorem commentLength_of_closed (h : behindComment? outer cs = some r) :
    commentLength outer cs + r.length = cs.length := by
  fun_induction behindComment? outer cs with
  | case1 => cases h
  | case2 outer q ih =>
    simp only [commentLength, List.length_cons, ← ih h]
    omega
  | case3 q =>
    obtain rfl := Option.some.inj h
    simp only [commentLength, List.length_cons]
    omega
  | case4 q outer ih =>
    simp only [commentLength, List.length_cons, ← ih h]
    omega
  | case5 outer c q hopen hclose ih =>
    rw [commentLength.eq_5 outer c q hopen hclose, List.length_cons, ← ih h]
    omega

/-- A comment that is never closed takes all there is. -/
theorem commentLength_of_open (h : behindComment? outer cs = none) :
    commentLength outer cs = cs.length := by
  fun_induction behindComment? outer cs with
  | case1 => rfl
  | case2 outer q ih => simp [commentLength, ih h]
  | case3 q => cases h
  | case4 q outer ih => simp [commentLength, ih h]
  | case5 outer c q hopen hclose ih =>
    rw [commentLength.eq_5 outer c q hopen hclose, ih h, List.length_cons]

theorem behindComment?_cons {c : Char} (hopen : ∀ q, c = '/' → r = '*' :: q → False)
    (hclose : ∀ q, c = '*' → r = '/' :: q → False) :
    behindComment? outer (c :: r) = behindComment? outer r := by
  rw [behindComment?.eq_def]
  split
  · next heq => cases heq
  · next heq =>
    obtain ⟨hc, hr⟩ := List.cons.inj heq
    exact (hopen _ hc hr).elim
  · next heq =>
    obtain ⟨hc, hr⟩ := List.cons.inj heq
    exact (hclose _ hc hr).elim
  · next heq => rw [(List.cons.inj heq).2]

/-- What closes a comment closes it inside others too, and leaves those open. -/
theorem behindComment?_inside (h : behindComment? outer body = some r) (further : Nat)
    (rest : List Char) :
    behindComment? (outer + further + 1) (body ++ rest) = behindComment? further (r ++ rest) := by
  fun_induction behindComment? outer body with
  | case1 => cases h
  | case2 outer q ih =>
    rw [← ih h, List.cons_append, List.cons_append, behindComment?]
    congr 1
    omega
  | case3 q =>
    obtain rfl := Option.some.inj h
    rw [Nat.zero_add]
    rfl
  | case4 q outer ih =>
    rw [← ih h, Nat.add_right_comm outer 1 further]
    rfl
  | case5 outer c q hopen hclose ih =>
    -- a text that closes a comment holds something behind its first character
    cases q with
    | nil => cases h
    | cons d q =>
      rw [← ih h, List.cons_append,
        behindComment?_cons (ne_mark_append hopen _) (ne_mark_append hclose _)]

/-! ## neutral texts -/

/-- A text that leaves open as many comments as were open before it, whatever stands behind it. -/
def Neutral (cs : List Char) : Prop :=
  ∀ outer rest, behindComment? outer (cs ++ rest) = behindComment? outer rest

namespace Neutral

theorem nil : Neutral [] := fun _ _ => rfl

theorem append {ds : List Char} (hcs : Neutral cs) (hds : Neutral ds) : Neutral (cs ++ ds) := by
  intro outer rest
  rw [List.append_assoc, hcs, hds]

/-- Without slashes and stars nothing is opened or closed. -/
theorem of_plain (hslash : '/' ∉ cs) (hstar : '*' ∉ cs) : Neutral cs := by
  induction cs with
  | nil => exact nil
  | cons c cs ih =>
    obtain ⟨hc, hslash⟩ : '/' ≠ c ∧ '/' ∉ cs := by simpa using hslash
    obtain ⟨hc', hstar⟩ : '*' ≠ c ∧ '*' ∉ cs := by simpa using hstar
    intro outer rest
    rw [List.cons_append, behindComment?_cons (fun _ h _ => hc h.symm) (fun _ h _ => hc' h.symm)]
    exact ih hslash hstar outer rest

/-- A comment that is closed at its end. -/
theorem of_closed (h : behindComment? 0 body = some []) : Neutral ('/' :: '*' :: body) := by
  intro outer rest
  have hinside := behindComment?_inside h outer rest
  rwa [Nat.zero_add, List.nil_append] at hinside

end Neutral

/-- Without a star no comment is closed. -/
theorem behindComment?_of_not_mem (hstar : '*' ∉ cs) : behindComment? outer cs = none := by
  induction cs with
  | nil => rfl
  | cons c cs ih =>
    obtain ⟨hc, hstar⟩ : '*' ≠ c ∧ '*' ∉ cs := by simpa using hstar
    rw [behindComment?_cons, ih hstar]
    · rintro q - rfl
      exact hstar List.mem_cons_self
    · exact fun _ h _ => hc h.symm

/-! ## lexemes -/

theorem lexChars_closed (h : behindComment? 0 (body ++ rest) = some rest) :
    lexChars ('/' :: '*' :: (body ++ rest)) =
      ⟨.blockComment, String.ofList ('/' :: '*' :: body)⟩ :: lexChars rest := by
  have hlength : commentLength 0 (body ++ rest) = body.length := by
    have htaken := commentLength_of_closed h
    rw [List.length_append] at htaken
    omega
  have hscan : scan '/' ('*' :: body ++ rest) = (.blockComment, ('*' :: body).length) := by
    show (Kind.blockComment, commentLength 0 (body ++ rest) + 1) = _
    rw [hlength, List.length_cons]
  exact lexChars_lexeme ('*' :: body) hscan

theorem lexChars_open (h : behindComment? 0 body = none) :
    lexChars ('/' :: '*' :: body) = [⟨.blockComment, String.ofList ('/' :: '*' :: body)⟩] := by
  have hscan : scan '/' ('*' :: body ++ []) = (.blockComment, ('*' :: body).length) := by
    show (Kind.blockComment, commentLength 0 (body ++ []) + 1) = _
    rw [List.append_nil, commentLength_of_open h, List.length_cons]
  have hlex := lexChars_lexeme ('*' :: body) hscan
  rwa [List.append_nil, lexChars_nil] at hlex

/-- A block comment starts with its opening. -/
theorem exists_of_kind_blockComment {c : Char} {tail : List Char}
    (h : (scan c tail).1 = .blockComment) : c = '/' ∧ ∃ r, tail = '*' :: r := by
  by_cases hspace : isSpace c = true
  · rw [scan_of_isSpace hspace] at h
    cases h
  by_cases hslash : c = '/'
  · subst hslash
    refine ⟨rfl, ?_⟩
    have hkind : (scanSlash tail).1 = .blockComment := h
    revert hkind
    unfold scanSlash
    split <;> simp
  · have htrivia := isTrivia_scan (eq_false_of_ne_true hspace) hslash tail
    rw [h] at htrivia
    cases htrivia

/-- A text that is cut up into one block comment, which is closed. -/
def IsClosedComment (text : String) : Prop :=
  lex text = [⟨.blockComment, text⟩] ∧ (behindComment? 0 (text.toList.drop 2)).isSome = true

instance (text : String) : Decidable (IsClosedComment text) := inferInstanceAs (Decidable (_ ∧ _))

theorem isClosedComment_iff {text : String} : IsClosedComment text ↔
    ∃ body, text.toList = '/' :: '*' :: body ∧ behindComment? 0 body = some [] := by
  constructor
  · rintro ⟨hlex, hclosed⟩
    cases htext : text.toList with
    | nil =>
      rw [lex, htext, lexChars_nil] at hlex
      cases hlex
    | cons c tail =>
      rw [lex, htext, lexChars_cons] at hlex
      obtain ⟨hkind, hall⟩ := Lexeme.mk.inj (List.cons.inj hlex).1
      obtain ⟨rfl, body, rfl⟩ := exists_of_kind_blockComment hkind
      rw [htext] at hclosed
      obtain ⟨r, hr⟩ := Option.isSome_iff_exists.1 hclosed
      have hr : behindComment? 0 body = some r := hr
      -- the comment takes the whole text, so nothing stands behind its end
      have htaken := commentLength_of_closed hr
      have hscan : scan '/' ('*' :: body) = (.blockComment, commentLength 0 body + 1) := rfl
      have hlength : min (commentLength 0 body) body.length = body.length := by
        have hchars := congrArg (List.length ·.toList) hall
        simpa [hscan, htext] using hchars
      obtain rfl : r = [] := List.length_eq_zero_iff.1 (by omega)
      exact ⟨body, rfl, hr⟩
  · rintro ⟨body, htext, hclosed⟩
    refine ⟨?_, by rw [htext]; exact congrArg Option.isSome hclosed⟩
    have hend : behindComment? 0 (body ++ []) = some [] := by rwa [List.append_nil]
    have hlex := lexChars_closed hend
    rwa [List.append_nil, lexChars_nil, ← htext, String.ofList_toList] at hlex

theorem IsClosedComment.neutral {text : String} (h : IsClosedComment text) :
    Neutral text.toList := by
  obtain ⟨body, htext, hclosed⟩ := isClosedComment_iff.1 h
  exact htext ▸ .of_closed hclosed

/-! ## commented out texts -/

/-- Plain texts with a comment behind each of them, and a plain text at the end. -/
def interleaved (pieces : List (String × String)) (last : String) : String :=
  pieces.foldr (fun piece after => piece.1 ++ piece.2 ++ after) last

example (u c v : String) : interleaved [(u, c)] v = u ++ c ++ v := rfl

section

variable {pieces : List (String × String)} {last : String}
  (hpieces : ∀ piece ∈ pieces,
    ('/' ∉ piece.1.toList ∧ '*' ∉ piece.1.toList) ∧ IsClosedComment piece.2)
  (hlast : '/' ∉ last.toList ∧ '*' ∉ last.toList)

include hpieces hlast

theorem neutral_interleaved : Neutral (interleaved pieces last).toList := by
  induction pieces with
  | nil => exact .of_plain hlast.1 hlast.2
  | cons piece pieces ih =>
    obtain ⟨⟨hplain, hclosed⟩, hpieces⟩ := List.forall_mem_cons.1 hpieces
    have hpiece := (Neutral.of_plain hplain.1 hplain.2).append hclosed.neutral
    have hchars : (interleaved (piece :: pieces) last).toList =
        piece.1.toList ++ piece.2.toList ++ (interleaved pieces last).toList := by
      rw [interleaved, List.foldr_cons, String.toList_append, String.toList_append]
      rfl
    exact hchars ▸ hpiece.append (ih hpieces)

/-- Closed comments between plain texts are commented out by one comment around them all, whatever
stands behind it, and that comment is closed, so the same can be done with it. (One comment between
two plain texts is the case of one piece.) Without its last mark the comment takes all that is
behind it too, if no star is there. -/
theorem lex_commented (rest : String) :
    lex ("/*" ++ interleaved pieces last ++ "*/" ++ rest) =
        ⟨.blockComment, "/*" ++ interleaved pieces last ++ "*/"⟩ :: lex rest ∧
      IsClosedComment ("/*" ++ interleaved pieces last ++ "*/") ∧
      ('*' ∉ rest.toList →
        lex ("/*" ++ interleaved pieces last ++ rest) =
          [⟨.blockComment, "/*" ++ interleaved pieces last ++ rest⟩]) := by
  have hneutral := neutral_interleaved hpieces hlast
  generalize interleaved pieces last = inner at hneutral
  have hbehind (after : List Char) :
      behindComment? 0 (inner.toList ++ ['*', '/'] ++ after) = some after := by
    rw [List.append_assoc, hneutral]
    rfl
  have hclosed : ("/*" ++ inner ++ "*/").toList =
      '/' :: '*' :: (inner.toList ++ ['*', '/']) := by
    rw [String.toList_append, String.toList_append]
    rfl
  refine ⟨?_, ?_, fun hstar => ?_⟩
  · have htext : String.ofList ('/' :: '*' :: (inner.toList ++ ['*', '/'])) =
        "/*" ++ inner ++ "*/" := by
      rw [← hclosed, String.ofList_toList]
    have hchars : ("/*" ++ inner ++ "*/" ++ rest).toList =
        '/' :: '*' :: (inner.toList ++ ['*', '/'] ++ rest.toList) := by
      rw [String.toList_append, hclosed]
      rfl
    rw [lex, hchars, lexChars_closed (hbehind rest.toList), htext]
    rfl
  · refine isClosedComment_iff.2 ⟨inner.toList ++ ['*', '/'], hclosed, ?_⟩
    have hend := hbehind []
    rwa [List.append_nil] at hend
  · have hopen : behindComment? 0 (inner.toList ++ rest.toList) = none := by
      rw [hneutral, behindComment?_of_not_mem hstar]
    have hchars : ("/*" ++ inner ++ rest).toList =
        '/' :: '*' :: (inner.toList ++ rest.toList) := by
      rw [String.toList_append, String.toList_append]
      rfl
    rw [lex, hchars, lexChars_open hopen, ← hchars, String.ofList_toList]

end

/-- A comment with slashes and stars next to its marks, and one that holds another. -/
theorem lex_commented_nested :
    let pieces := [("var é = 1 ", "/*/ **/"), ("\n", "/* a /* b */ c */")]
    ((∀ piece ∈ pieces, ('/' ∉ piece.1.toList ∧ '*' ∉ piece.1.toList) ∧
        IsClosedComment piece.2) ∧ '/' ∉ "".toList ∧ '*' ∉ "".toList) ∧ '*' ∉ " / 2".toList ∧
      lex ("/*" ++ interleaved pieces "" ++ "*/" ++ " / 2") =
        ⟨.blockComment, "/*" ++ interleaved pieces "" ++ "*/"⟩ :: lex " / 2" ∧
      IsClosedComment ("/*" ++ interleaved pieces "" ++ "*/") ∧
      lex ("/*" ++ interleaved pieces "" ++ " / 2") =
        [⟨.blockComment, "/*" ++ interleaved pieces "" ++ " / 2"⟩] := by
  intro pieces
  have hpieces : ∀ piece ∈ pieces, ('/' ∉ piece.1.toList ∧ '*' ∉ piece.1.toList) ∧
      IsClosedComment piece.2 := by decide +kernel
  have hlast : '/' ∉ "".toList ∧ '*' ∉ "".toList := by decide
  have hstar : '*' ∉ " / 2".toList := by decide
  obtain ⟨hcut, hclosed, hopen⟩ := lex_commented hpieces hlast " / 2"
  exact ⟨⟨hpieces, hlast⟩, hstar, hcut, hclosed, hopen hstar⟩

end Lexeme

end SwiftOutline

import SwiftOutline.Proofs.Building
import SwiftOutline.Proofs.Seam

/-!
# SwiftOutline.Proofs.Partition

The lexemes of a text partition its bytes.

* `Partition` — spans that cut up a text between its characters, one right behind the other;
* `commentBytes`, `longTextBytes` — the ends of comments and of texts between triple quotes, found
  by loops over the characters that count bytes;
* `scanBytes?` — the lexeme that a text starts with and the bytes it takes, none if it would take
  more than there is;
* `lex_partition` — the spans of the lexemes of every source are a partition, and each of them ends
  where the lexeme read at its start does, counted in bytes. A count that is wrong for some
  character would end a span elsewhere or within a character.
-/

namespace SwiftOutline

/-- Spans that cut up a text. -/
structure Partition (source : String) (spans : List Span) : Prop where
  nonempty : ∀ s ∈ spans, s.start < s.stop
  /-- No span starts or ends within a character. -/
  bounds : ∀ s ∈ spans, String.Pos.Raw.IsValid source ⟨s.start⟩ ∧
    String.Pos.Raw.IsValid source ⟨s.stop⟩
  first : ∀ s ∈ spans.head?, s.start = 0
  next : spans.IsChain fun s t => t.start = s.stop
  last : ∀ s ∈ spans.getLast?, s.stop = source.utf8ByteSize
  /-- Only a text without characters has no spans. -/
  covers : spans = [] → source = ""

namespace Lexeme

/-! ## ends counted in bytes -/

/-- The bytes that a block comment takes behind its opening, when `depth` comments are open and
`bytes` of them were read. A comment that is never closed takes all there are. -/
def commentBytes (depth bytes : Nat) : List Char → Nat
  | [] => bytes
  | '/' :: '*' :: r => commentBytes (depth + 1) (bytes + 2) r
  | '*' :: '/' :: r =>
    if depth - 1 = 0 then bytes + 2 else commentBytes (depth - 1) (bytes + 2) r
  | c :: r => commentBytes depth (bytes + c.utf8Size) r

/-- The bytes that a text between triple quotes takes behind the first three, when `bytes` of them
were read, the last one a backslash that takes the next character along if it is `escaped`. A text
that is never closed takes all there are. -/
def longTextBytes (escaped : Bool) (bytes : Nat) : List Char → Nat
  | [] => bytes
  | c :: r =>
    if escaped then longTextBytes false (bytes + c.utf8Size) r
    else if c == '\\' then longTextBytes true (bytes + c.utf8Size) r
    else if ['\x22', '\x22', '\x22'].isPrefixOf (c :: r) then bytes + 3
    else longTextBytes false (bytes + c.utf8Size) r

/-- The kind of the lexeme that starts with a character and the bytes it takes; none if it would
take more characters than follow. -/
def scanBytes? (c : Char) (tail : List Char) : Option (Kind × Nat) :=
  match c, tail with
  | '/', '*' :: r => some (.blockComment, 2 + commentBytes 1 0 r)
  | '\x22', '\x22' :: '\x22' :: r => some (.string, 3 + longTextBytes false 0 r)
  | _, _ =>
    let (kind, n) := scan c tail
    if n ≤ tail.length then some (kind, String.utf8Len (c :: tail.take n)) else none

theorem commentBytes_eq (outer bytes : Nat) (cs : List Char) :
    commentBytes (outer + 1) bytes cs =
      bytes + String.utf8Len (cs.take (commentLength outer cs)) := by
  have hone : Char.utf8Size '/' = 1 ∧ Char.utf8Size '*' = 1 := by decide
  fun_induction commentLength outer cs generalizing bytes with
  | case1 => simp [commentBytes]
  | case2 outer r ih =>
    simp only [commentBytes, ih, List.take_succ_cons, String.utf8Len_cons, hone]
    omega
  | case3 r => simp [commentBytes, hone]
  | case4 r outer ih =>
    rw [commentBytes, if_neg (by omega), Nat.add_sub_cancel, ih]
    simp only [List.take_succ_cons, String.utf8Len_cons, hone]
    omega
  | case5 outer c r hopen hclose ih =>
    rw [commentBytes, ih, List.take_succ_cons, String.utf8Len_cons]
    · omega
    · exact hopen
    · exact hclose

theorem longTextBytes_eq (bytes : Nat) (cs : List Char) :
    longTextBytes false bytes cs = bytes + String.utf8Len (cs.take (longTextLength cs)) := by
  have hquote : Char.utf8Size '\x22' = 1 := by decide
  fun_induction longTextLength cs generalizing bytes with
  | case1 => simp [longTextBytes]
  | case2 => simp [longTextBytes]
  | case3 c r ih =>
    have hstep : longTextBytes false bytes ('\\' :: c :: r) =
        longTextBytes false (bytes + Char.utf8Size '\\' + c.utf8Size) r := by
      simp [longTextBytes]
    rw [hstep, ih, List.take_succ_cons, List.take_succ_cons, String.utf8Len_cons,
      String.utf8Len_cons]
    omega
  | case4 r => simp [longTextBytes, hquote]
  | case5 c r hone hescape hquotes ih =>
    have hc := ne_backslash hone hescape
    have hopen : ['\x22', '\x22', '\x22'].isPrefixOf (c :: r) = false := by
      by_contra h
      obtain ⟨q, hq⟩ := List.isPrefixOf_iff_prefix.1 (eq_true_of_ne_false h)
      obtain ⟨rfl, rfl⟩ := List.cons.inj hq
      exact hquotes q rfl rfl
    have hstep : longTextBytes false bytes (c :: r) =
        longTextBytes false (bytes + c.utf8Size) r := by
      simp [longTextBytes, hc, hopen]
    rw [hstep, ih, List.take_succ_cons, String.utf8Len_cons]
    omega

/-- Counted in bytes, a lexeme takes the characters that are scanned for it. -/
theorem scanBytes?_eq (c : Char) (tail : List Char) :
    scanBytes? c tail =
      some ((scan c tail).1, String.utf8Len (c :: tail.take (scan c tail).2)) := by
  have hletter : Unicode.isLetter '/' = false ∧ Unicode.isLetter '\x22' = false := by decide
  have hone : Char.utf8Size '/' = 1 ∧ Char.utf8Size '*' = 1 ∧ Char.utf8Size '\x22' = 1 := by
    decide
  unfold scanBytes?
  split
  · next r =>
    have hscan : scan '/' ('*' :: r) = (.blockComment, commentLength 0 r + 1) := by
      simp [scan, isSpace, isOperatorChar, hletter, Char.isDigit, scanSlash]
    have hbytes : 2 + commentBytes 1 0 r =
        String.utf8Len ('/' :: ('*' :: r).take (commentLength 0 r + 1)) := by
      rw [commentBytes_eq, List.take_succ_cons, String.utf8Len_cons, String.utf8Len_cons, hone.1,
        hone.2.1]
      omega
    rw [hscan, hbytes]
  · next r =>
    have hscan : scan '\x22' ('\x22' :: '\x22' :: r) = (.string, longTextLength r + 2) := by
      simp [scan, isSpace, isOperatorChar, hletter, Char.isDigit, scanText]
    have hbytes : 3 + longTextBytes false 0 r =
        String.utf8Len ('\x22' :: ('\x22' :: '\x22' :: r).take (longTextLength r + 2)) := by
      rw [longTextBytes_eq, List.take_succ_cons, List.take_succ_cons, String.utf8Len_cons,
        String.utf8Len_cons, String.utf8Len_cons, hone.2.2]
      omega
    rw [hscan, hbytes]
  · exact if_pos scan_le

/-! ## lexemes laid one after the other -/

theorem map_span_ofLexemes (start : Nat) (ls : List Lexeme) :
    (Placed.ofLexemes start ls).map (·.span) = spans start ls := by
  induction ls generalizing start with
  | nil => rfl
  | cons l ls ih => simp [Placed.ofLexemes, spans, ih]

theorem isChain_spans (start : Nat) (ls : List Lexeme) :
    (spans start ls).IsChain fun s t => t.start = s.stop := by
  induction ls generalizing start with
  | nil => exact .nil
  | cons l ls ih =>
    cases ls with
    | nil => exact .singleton _
    | cons m ls => exact .cons_cons rfl (ih _)

theorem start_of_mem_head?_spans (start : Nat) (ls : List Lexeme) :
    ∀ s ∈ (spans start ls).head?, s.start = start := by
  cases ls <;> simp [spans]

theorem stop_of_mem_getLast?_spans (start : Nat) (ls : List Lexeme) :
    ∀ s ∈ (spans start ls).getLast?, s.stop = start + sizeOfAll ls := by
  induction ls generalizing start with
  | nil => simp [spans]
  | cons l ls ih =>
    cases ls with
    | nil => simp [spans]
    | cons m ls =>
      intro s hs
      rw [sizeOfAll_cons, ← Nat.add_assoc]
      exact ih (start + l.size) s (by simpa [spans, List.getLast?_cons] using hs)

/-- A lexeme of a text stands behind some characters, and it is scanned from those that follow. -/
theorem exists_of_mem_ofLexemes {cs : List Char} {p : Placed} (front : List Char)
    (h : p ∈ Placed.ofLexemes (String.utf8Len front) (lexChars cs)) :
    ∃ before c tail, front ++ cs = before ++ c :: tail ∧ p.lexeme.kind = (scan c tail).1 ∧
      p.span = ⟨String.utf8Len before,
        String.utf8Len before + String.utf8Len (c :: tail.take (scan c tail).2)⟩ := by
  fun_induction lexChars cs generalizing front with
  | case1 => cases h
  | case2 c tail kind n heq ih =>
    rw [Placed.ofLexemes, List.mem_cons, size_eq_utf8Len, String.toList_ofList] at h
    obtain rfl | h := h
    · exact ⟨front, c, tail, rfl, by rw [heq], by rw [heq]⟩
    · rw [← String.utf8Len_append] at h
      obtain ⟨before, d, rest, hsplit, hp⟩ := ih _ h
      refine ⟨before, d, rest, ?_, hp⟩
      rw [← hsplit, List.append_assoc, List.cons_append, List.take_append_drop]

/-- A place behind the first characters of a text is none within a character. -/
theorem isValid_utf8Len {source : String} {before behind : List Char}
    (h : source.toList = before ++ behind) :
    String.Pos.Raw.IsValid source ⟨String.utf8Len before⟩ := by
  refine String.Pos.Raw.isValid_iff_exists_append.2 ⟨.ofList before, .ofList behind, ?_, ?_⟩
  · rw [← String.ofList_append, ← h, String.ofList_toList]
  · rw [String.rawEndPos, String.utf8ByteSize_ofList]

/-! ## sources -/

/-- Where the lexemes of a source stand, the bytes are read that they cover. -/
theorem read_of_mem_lex {source : String} {p : Placed}
    (h : p ∈ Placed.ofLexemes 0 (lex source)) :
    p.span.start < p.span.stop ∧
      (String.Pos.Raw.IsValid source ⟨p.span.start⟩ ∧
        String.Pos.Raw.IsValid source ⟨p.span.stop⟩) ∧
      ∃ c tail, Span.dropBytes? p.span.start source.toList = some (c :: tail) ∧
        scanBytes? c tail = some (p.lexeme.kind, p.span.stop - p.span.start) := by
  obtain ⟨before, c, tail, hsource, hkind, hspan⟩ := exists_of_mem_ofLexemes [] h
  rw [List.nil_append] at hsource
  have hpos := c.utf8Size_pos
  have hsplit : source.toList =
      (before ++ c :: tail.take (scan c tail).2) ++ tail.drop (scan c tail).2 := by
    rw [hsource, List.append_assoc, List.cons_append, List.take_append_drop]
  refine ⟨?_, ⟨?_, ?_⟩, c, tail, ?_, ?_⟩
  · rw [hspan, String.utf8Len_cons]
    dsimp only
    omega
  · rw [hspan]
    exact isValid_utf8Len hsource
  · rw [hspan, ← String.utf8Len_append]
    exact isValid_utf8Len hsplit
  · rw [hspan, hsource, Span.dropBytes?_append]
  · rw [scanBytes?_eq, hspan, hkind, Nat.add_sub_cancel_left]

/-- The spans of the lexemes of a source are a partition of its bytes. The lexeme that is read where
a span starts takes its bytes, and its text is what the span cuts out of the source. -/
theorem lex_partition (source : String) :
    Partition source ((Placed.ofLexemes 0 (lex source)).map (·.span)) ∧
      ∀ p ∈ Placed.ofLexemes 0 (lex source),
        p.span.slice? source.toList = some p.lexeme.text ∧
        ∃ c tail, Span.dropBytes? p.span.start source.toList = some (c :: tail) ∧
          scanBytes? c tail = some (p.lexeme.kind, p.span.stop - p.span.start) := by
  constructor
  · have hread : ∀ s ∈ (Placed.ofLexemes 0 (lex source)).map (·.span), s.start < s.stop ∧
        String.Pos.Raw.IsValid source ⟨s.start⟩ ∧ String.Pos.Raw.IsValid source ⟨s.stop⟩ := by
      intro s hs
      obtain ⟨p, hp, rfl⟩ := List.mem_map.1 hs
      obtain ⟨hpos, hvalid, -⟩ := read_of_mem_lex hp
      exact ⟨hpos, hvalid⟩
    rw [map_span_ofLexemes] at hread ⊢
    refine ⟨fun s hs => (hread s hs).1, fun s hs => (hread s hs).2,
      start_of_mem_head?_spans 0 _, isChain_spans 0 _, ?_, ?_⟩
    · intro s hs
      rw [stop_of_mem_getLast?_spans 0 _ s hs, sizeOfAll_lex, Nat.zero_add]
    · intro hnil
      have hlength := length_spans 0 (lex source)
      rw [hnil, List.length_nil, eq_comm, List.length_eq_zero_iff] at hlength
      rw [← String.utf8ByteSize_eq_zero_iff, ← sizeOfAll_lex, hlength, sizeOfAll_nil]
  · intro p hp
    obtain ⟨-, -, hread⟩ := read_of_mem_lex hp
    exact ⟨Placed.slice?_of_mem_lex hp, hread⟩

example : (Placed.ofLexemes 0 (lex "é/*ü*/\x22é")).map (·.span) = [⟨0, 2⟩, ⟨2, 8⟩, ⟨8, 11⟩] := by
  decide +kernel

end Lexeme

end SwiftOutline

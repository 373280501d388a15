import Mathlib.Data.String.Basic
import SwiftOutline.Proofs.Layout

/-!
# SwiftOutline.Proofs.Building

The events of a marked tree build its trees again.

* `slice?_of_mem_ofLexemes` — the span of a lexeme cuts its text out of the source, so every
  token finds its text;
* `foldlM_eventsOfAll` — the events of marked trees put their trees on a scaffold and leave
  the open nodes as they were, so every node that is opened is closed;
* `ofEvents?_fileEvents` — the events of a source file build its tree.
-/

namespace SwiftOutline

/-! ## slices -/

namespace Span

/-- The bytes of a text dropped from the front of a longer one leave the rest. -/
theorem dropBytes?_append (us vs : List Char) :
    dropBytes? (String.utf8Len us) (us ++ vs) = some vs := by
  induction us with
  | nil => cases vs <;> rfl
  | cons c us ih =>
    have hc := c.utf8Size_pos
    obtain ⟨n, hn⟩ : ∃ n, String.utf8Len us + c.utf8Size = n + 1 :=
      ⟨String.utf8Len us + c.utf8Size - 1, by omega⟩
    rw [String.utf8Len_cons, List.cons_append, hn, dropBytes?, if_pos (by omega), ← hn,
      Nat.add_sub_cancel, ih]

/-- The bytes of a text taken from the front of a longer one are that text. -/
theorem takeBytes?_append (us vs : List Char) :
    takeBytes? (String.utf8Len us) (us ++ vs) = some us := by
  induction us with
  | nil => cases vs <;> rfl
  | cons c us ih =>
    have hc := c.utf8Size_pos
    obtain ⟨n, hn⟩ : ∃ n, String.utf8Len us + c.utf8Size = n + 1 :=
      ⟨String.utf8Len us + c.utf8Size - 1, by omega⟩
    rw [String.utf8Len_cons, List.cons_append, hn, takeBytes?, if_pos (by omega), ← hn,
      Nat.add_sub_cancel, ih]
    rfl

theorem slice?_append (us vs ws : List Char) :
    slice? (us ++ (vs ++ ws)) ⟨String.utf8Len us, String.utf8Len us + String.utf8Len vs⟩ =
      some (String.ofList vs) := by
  rw [slice?, if_pos (Nat.le_add_right _ _), dropBytes?_append, Option.bind_some,
    Nat.add_sub_cancel_left, takeBytes?_append]
  rfl

end Span

theorem Lexeme.size_eq_utf8Len (l : Lexeme) : l.size = String.utf8Len l.text.toList := by
  rw [← String.utf8ByteSize_ofList, String.ofList_toList]
  rfl

theorem Lexeme.sizeOfAll_eq_utf8Len (ls : List Lexeme) :
    sizeOfAll ls = String.utf8Len (ls.flatMap (·.text.toList)) := by
  induction ls with
  | nil => rfl
  | cons l ls ih =>
    rw [sizeOfAll_cons, ih, List.flatMap_cons, String.utf8Len_append, size_eq_utf8Len]

/-- The lexemes of a source take all its bytes. -/
theorem Lexeme.sizeOfAll_lex (source : String) :
    sizeOfAll (lex source) = source.utf8ByteSize := by
  rw [sizeOfAll_eq_utf8Len, lex, flatMap_lexChars, ← String.utf8ByteSize_ofList,
    String.ofList_toList]

namespace Placed

/-- The span of a lexeme cuts its text out of the text that all lexemes spell. -/
theorem slice?_of_mem_ofLexemes {ls : List Lexeme} {p : Placed} (front : List Char)
    (h : p ∈ ofLexemes (String.utf8Len front) ls) :
    p.span.slice? (front ++ ls.flatMap (·.text.toList)) = some p.lexeme.text := by
  induction ls generalizing front with
  | nil => cases h
  | cons l ls ih =>
    rw [ofLexemes, List.mem_cons, Lexeme.size_eq_utf8Len, ← String.utf8Len_append] at h
    rw [List.flatMap_cons]
    obtain rfl | h := h
    · rw [String.utf8Len_append, Span.slice?_append, String.ofList_toList]
    · rw [← List.append_assoc]
      exact ih _ h

/-- The span of a lexeme of a source cuts its text out of the source. -/
theorem slice?_of_mem_lex {source : String} {p : Placed}
    (h : p ∈ ofLexemes 0 (Lexeme.lex source)) :
    p.span.slice? source.toList = some p.lexeme.text := by
  have hs := slice?_of_mem_ofLexemes [] h
  rwa [List.nil_append, Lexeme.lex, Lexeme.flatMap_lexChars] at hs

end Placed

/-! ## building -/

namespace Marked

variable {source : List Char}

mutual

/-- The events of a marked tree put its trees on a scaffold, if the spans of its tokens cut
their texts out of the source. -/
theorem foldlM_events (m : Marked)
    (h : ∀ p ∈ m.placed, p.span.slice? source = some p.lexeme.text) (s : Scaffold) :
    m.events.foldlM (Scaffold.step? source) s = some ⟨m.trees.reverse ++ s.done, s.outer⟩ := by
  cases m with
  | token p =>
    have hp := h p List.mem_cons_self
    simp [events, trees, Scaffold.step?, hp]
  | node k ms =>
    -- The node's own trees gather on an empty level, which `finish` turns into one tree.
    have hms := foldlM_eventsOfAll ms h ⟨[], (k, s.done) :: s.outer⟩
    rw [events, List.foldlM_append, List.foldlM_cons]
    simp only [Scaffold.step?, Option.bind_eq_bind, Option.bind_some, hms]
    simp [Scaffold.step?, trees]
  | fault f sp => simp [events, trees, Scaffold.step?]

/-- The events of a run of marked trees put their trees on a scaffold. -/
theorem foldlM_eventsOfAll (ms : List Marked)
    (h : ∀ p ∈ placedOfAll ms, p.span.slice? source = some p.lexeme.text) (s : Scaffold) :
    (eventsOfAll ms).foldlM (Scaffold.step? source) s =
      some ⟨(treesOfAll ms).reverse ++ s.done, s.outer⟩ := by
  cases ms with
  | nil => rfl
  | cons m ms =>
    have hm := foldlM_events m (fun p hp => h p (List.mem_append_left _ hp)) s
    have hms := foldlM_eventsOfAll ms (fun p hp => h p (List.mem_append_right _ hp))
      ⟨m.trees.reverse ++ s.done, s.outer⟩
    rw [eventsOfAll, List.foldlM_append, hm, Option.bind_eq_bind, Option.bind_some, hms]
    simp [treesOfAll]

end

end Marked

/-! ## source files -/

/-- The parts of a source file hold its lexemes in order, each in its place. -/
theorem placedOfAll_markedParts (source : String) :
    Marked.placedOfAll (markedParts source) = Placed.ofLexemes 0 (Lexeme.lex source) := by
  rw [markedParts, Marked.placedOfAll_append, Marked.placedOfAll_map_token,
    Sketch.placed_layAll]

/-- The events of a source file build its tree. -/
theorem ofEvents?_fileEvents (source : String) :
    Tree.ofEvents? source (fileEvents source) = some (parse source).tree := by
  have hslice : ∀ p ∈ (parseMarked source).placed,
      p.span.slice? source.toList = some p.lexeme.text := by
    intro p hp
    rw [parseMarked, Marked.placed, placedOfAll_markedParts] at hp
    exact Placed.slice?_of_mem_lex hp
  have hfold := Marked.foldlM_events (parseMarked source) hslice .empty
  rw [Tree.ofEvents?, fileEvents, hfold]
  rfl

end SwiftOutline

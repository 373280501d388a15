import SwiftOutline.Proofs.Appended

/-!
# SwiftOutline.Proofs.Reported

Where the faults of a source file are reported.

* `Event.reports` — the errors among some events;
* `reports_fileEvents` — the events of a file report its faults, each with a span;
* `pairwise_faultMarksOfAll` — the marks of a sketch count ever more words;
* `headSpan_drop_le` — the later word starts later, and the end of the source last;
* `faults_located` — a fault stands at a word or at the end of the source, and the faults stand
  in the order of their places.
-/

namespace SwiftOutline

/-! ## reports -/

/-- The errors among some events, with their places. -/
def Event.reports (events : List Event) : List (String × Option Span) :=
  events.filterMap fun
    | .error message span => some (message, span)
    | _ => none

@[simp] theorem Event.reports_append (es fs : List Event) :
    reports (es ++ fs) = reports es ++ reports fs := by
  simp [reports]

namespace Marked

/-- How a fault is reported. -/
def report (f : Fault × Span) : String × Option Span := (f.1.message, some f.2)

mutual

/-- The events of a marked tree report its faults. -/
theorem reports_events (m : Marked) : Event.reports m.events = m.faults.map report := by
  cases m with
  | token p => simp [events, faults, Event.reports]
  | fault f s => simp [events, faults, Event.reports, report]
  | node k ms =>
    have hparts := reports_eventsOfAll ms
    simpa [events, faults, Event.reports] using hparts

/-- The events of a run of marked trees report its faults. -/
theorem reports_eventsOfAll (ms : List Marked) :
    Event.reports (eventsOfAll ms) = (faultsOfAll ms).map report := by
  cases ms with
  | nil => simp [eventsOfAll, faultsOfAll, Event.reports]
  | cons m ms => simp [eventsOfAll, faultsOfAll, reports_events m, reports_eventsOfAll ms]

end

end Marked

/-- The events of a source file report its faults, and nothing else. -/
theorem reports_fileEvents (source : String) :
    Event.reports (fileEvents source) = (parse source).faults.map Marked.report :=
  Marked.reports_events (parseMarked source)

/-! ## marks -/

namespace Sketch

mutual

/-- The marks of a sketch count the words before it and none behind it. -/
theorem bounds_faultMarks {n : Nat} {s : Sketch} {m : Fault × Nat} (h : m ∈ s.faultMarks n) :
    n ≤ m.2 ∧ m.2 ≤ n + s.words.length := by
  cases s with
  | word w => simp [faultMarks] at h
  | gap => simp [faultMarks] at h
  | fault f =>
    simp only [faultMarks, List.mem_singleton] at h
    simp [h]
  | node k ps => exact bounds_faultMarksOfAll h

/-- The marks of a run of sketches count the words before it and none behind it. -/
theorem bounds_faultMarksOfAll {n : Nat} {ss : List Sketch} {m : Fault × Nat}
    (h : m ∈ faultMarksOfAll n ss) : n ≤ m.2 ∧ m.2 ≤ n + (wordsOfAll ss).length := by
  cases ss with
  | nil => simp [faultMarksOfAll] at h
  | cons s ss =>
    simp only [faultMarksOfAll, List.mem_append] at h
    simp only [wordsOfAll_cons, List.length_append]
    obtain h | h := h
    · have := bounds_faultMarks h
      omega
    · have := bounds_faultMarksOfAll h
      omega

end

mutual

/-- From mark to mark a sketch counts no fewer words. -/
theorem pairwise_faultMarks (n : Nat) (s : Sketch) :
    (s.faultMarks n).Pairwise (·.2 ≤ ·.2) := by
  cases s with
  | word w => simp [faultMarks]
  | gap => simp [faultMarks]
  | fault f => simp [faultMarks]
  | node k ps => exact pairwise_faultMarksOfAll n ps

/-- From mark to mark a run of sketches counts no fewer words. -/
theorem pairwise_faultMarksOfAll (n : Nat) (ss : List Sketch) :
    (faultMarksOfAll n ss).Pairwise (·.2 ≤ ·.2) := by
  cases ss with
  | nil => simp [faultMarksOfAll]
  | cons s ss =>
    rw [faultMarksOfAll, List.pairwise_append]
    refine ⟨pairwise_faultMarks n s, pairwise_faultMarksOfAll _ ss, fun a ha b hb => ?_⟩
    have hs := bounds_faultMarks ha
    have hss := bounds_faultMarksOfAll hb
    omega

end

end Sketch

/-! ## places -/

namespace Placed

/-- Lexemes that hold something, laid one after the other from an offset on, start one after
the other, and before what follows them. -/
theorem bounds_ofLexemes {start : Nat} {ls : List Lexeme} (hsize : ∀ l ∈ ls, 0 < l.size) :
    (∀ p ∈ ofLexemes start ls,
      start ≤ p.span.start ∧ p.span.start < start + Lexeme.sizeOfAll ls) ∧
      (ofLexemes start ls).Pairwise (·.span.start ≤ ·.span.start) := by
  induction ls generalizing start with
  | nil => simp [ofLexemes]
  | cons l ls ih =>
    obtain ⟨hmem, hpair⟩ := @ih (start + l.size) fun l' hl' => hsize l' (by simp [hl'])
    have hl := hsize l (by simp)
    simp only [ofLexemes, List.mem_cons, List.pairwise_cons, Lexeme.sizeOfAll_cons]
    constructor
    · rintro p (rfl | hp)
      · dsimp only
        omega
      · have := hmem p hp
        omega
    · refine ⟨fun p hp => ?_, hpair⟩
      have := (hmem p hp).1
      omega

variable {size : Nat} {ws : List Placed}

/-- Behind more words the next one starts later, and the end of the source last. -/
theorem headSpan_drop_le (hbefore : ∀ p ∈ ws, p.span.start < size)
    (hpair : ws.Pairwise (·.span.start ≤ ·.span.start)) {m n : Nat} (h : m ≤ n) :
    (headSpan size (ws.drop m)).start ≤ (headSpan size (ws.drop n)).start ∧
      (headSpan size (ws.drop m) = ⟨size, size⟩ → headSpan size (ws.drop n) = ⟨size, size⟩) := by
  obtain ⟨d, rfl⟩ := Nat.exists_eq_add_of_le h
  rw [← List.drop_drop]
  have hbefore' : ∀ p ∈ ws.drop m, p.span.start < size := fun p hp =>
    hbefore p (List.mem_of_mem_drop hp)
  have hpair' := hpair.sublist (List.drop_sublist m ws)
  cases hm : ws.drop m with
  | nil => simp [headSpan]
  | cons p r =>
    rw [hm] at hbefore' hpair'
    have hp := hbefore' p (by simp)
    constructor
    · cases hd : (p :: r).drop d with
      | nil => exact Nat.le_of_lt hp
      | cons q _ =>
        have hq : q ∈ p :: r := List.mem_of_mem_drop (hd ▸ List.mem_cons_self)
        obtain rfl | hq := List.mem_cons.1 hq
        · exact Nat.le_refl _
        · exact List.rel_of_pairwise_cons hpair' hq
    · -- a word starts before the end of the source
      intro hend
      have := congrArg Span.start hend
      simp only [headSpan] at this
      omega

/-- The span of the first word is a word's, or empty and at the end of the source. -/
theorem headSpan_eq_or (size : Nat) (ws : List Placed) :
    (∃ p ∈ ws, headSpan size ws = p.span) ∨ headSpan size ws = ⟨size, size⟩ := by
  cases ws with
  | nil => simp [headSpan]
  | cons p r => simp [headSpan]

end Placed

/-! ## source files -/

/-- The lexemes of a source that are no trivia, where they stand in it. -/
def placedWords (source : String) : List Placed :=
  Placed.words (Placed.ofLexemes 0 (Lexeme.lex source))

/-- The empty span at the end of a source. -/
def endSpan (source : String) : Span := ⟨source.utf8ByteSize, source.utf8ByteSize⟩

/-- The words of a source start in order and before its end. -/
theorem bounds_placedWords (source : String) :
    (∀ p ∈ placedWords source, p.span.start < source.utf8ByteSize) ∧
      (placedWords source).Pairwise (·.span.start ≤ ·.span.start) := by
  have hsize : ∀ l ∈ Lexeme.lex source, 0 < l.size := fun _ => Lexeme.size_pos_of_mem_lex
  obtain ⟨hmem, hpair⟩ := @Placed.bounds_ofLexemes 0 _ hsize
  rw [Lexeme.sizeOfAll_lex, Nat.zero_add] at hmem
  exact ⟨fun p hp => (hmem p (List.mem_filter.1 hp).1).2, hpair.filter _⟩

/-- Every fault of a source file is reported with a span: that of a word of the file, or the
empty one at its end. The faults are reported in the order of their places, and once one stands
at the end all those behind it do. -/
theorem faults_located (source : String) :
    Event.reports (fileEvents source) = (parse source).faults.map Marked.report ∧
      (∀ f ∈ (parse source).faults,
        (∃ p ∈ placedWords source, f.2 = p.span) ∨ f.2 = endSpan source) ∧
      (parse source).faults.Pairwise fun f g =>
        f.2.start ≤ g.2.start ∧ (f.2 = endSpan source → g.2 = endSpan source) := by
  obtain ⟨hbefore, hpair⟩ := bounds_placedWords source
  refine ⟨reports_fileEvents source, ?_, ?_⟩
  · rw [faults_parse, Lexeme.sizeOfAll_lex]
    intro f hf
    obtain ⟨m, -, rfl⟩ := List.mem_map.1 hf
    obtain ⟨p, hp, hspan⟩ | hspan := Placed.headSpan_eq_or source.utf8ByteSize
      ((placedWords source).drop m.2)
    · exact .inl ⟨p, List.mem_of_mem_drop hp, hspan⟩
    · exact .inr hspan
  · rw [faults_parse, Lexeme.sizeOfAll_lex]
    refine (Sketch.pairwise_faultMarksOfAll 0 (fileSketch source)).map _ fun a b hab => ?_
    exact Placed.headSpan_drop_le hbefore hpair hab

end SwiftOutline

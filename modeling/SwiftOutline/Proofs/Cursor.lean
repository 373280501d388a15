import SwiftOutline.Proofs.Building

/-!
# SwiftOutline.Proofs.Cursor

Reading a source by index. A cursor counts the words it has passed and the lexemes it has
handed on as events; every look at a lexeme goes through an index that may be out of range,
and every such look is checked here.

* `Cursor` — the counters and the events so far;
* `Cursor.flush?`, `bump?`, `start?`, `fault?` — the moves, `none` where an index leaves its
  range;
* `Cursor.play?` — the moves that draw a sketch. A node may be opened when it begins, or
  later, at a mark set where it begins and after any number of its parts;
* `Cursor.At` — the invariant: what was handed on is a prefix of the lexemes, and the words
  passed are the words in it;
* `play?_eq`, `run?_eq` — no move fails, and the events are those of the marked tree whenever
  nodes are opened.

```
lexemes   = handed on ++ left              emitted  = length of what was handed on
words     = passed ++ left                 position = number of words passed
```
-/

namespace SwiftOutline

theorem Marked.eventsOfAll_append (ms ns : List Marked) :
    eventsOfAll (ms ++ ns) = eventsOfAll ms ++ eventsOfAll ns := by
  induction ms with
  | nil => rfl
  | cons m ms ih => simp only [List.cons_append, eventsOfAll, ih, List.append_assoc]

/-! ## indexes of words -/

namespace Placed

/-- The indexes of the words among lexemes, the first of which has the index `i`. -/
def wordIndexes (i : Nat) : List Placed → List Nat
  | [] => []
  | p :: ps => if p.lexeme.isTrivia then wordIndexes (i + 1) ps else i :: wordIndexes (i + 1) ps

theorem wordIndexes_append (i : Nat) (ps qs : List Placed) :
    wordIndexes i (ps ++ qs) = wordIndexes i ps ++ wordIndexes (i + ps.length) qs := by
  induction ps generalizing i with
  | nil => rfl
  | cons p ps ih =>
    have hi : i + (p :: ps).length = i + 1 + ps.length := by rw [List.length_cons]; omega
    by_cases h : p.lexeme.isTrivia = true
    · rw [List.cons_append, wordIndexes, wordIndexes, if_pos h, if_pos h, ih, hi]
    · rw [List.cons_append, wordIndexes, wordIndexes, if_neg h, if_neg h, ih, hi,
        List.cons_append]

@[simp] theorem length_wordIndexes (i : Nat) (ps : List Placed) :
    (wordIndexes i ps).length = (words ps).length := by
  induction ps generalizing i with
  | nil => rfl
  | cons p ps ih =>
    by_cases h : p.lexeme.isTrivia = true
    · simp [wordIndexes, words, h, ih]
    · simp [wordIndexes, words, h, ih]

/-- Trivia holds no word. -/
theorem wordIndexes_of_trivia {ps : List Placed} (i : Nat)
    (h : ∀ p ∈ ps, p.lexeme.isTrivia = true) : wordIndexes i ps = [] := by
  have hw : words ps = [] := by
    rw [words, List.filter_eq_nil_iff]
    simpa using h
  rw [← List.length_eq_zero_iff, length_wordIndexes, hw]
  rfl

/-- Each index leads to its word. -/
theorem map_getElem?_wordIndexes (front ps : List Placed) :
    (wordIndexes front.length ps).map ((front ++ ps)[·]?) = (words ps).map some := by
  induction ps generalizing front with
  | nil => rfl
  | cons p ps ih =>
    have hps := ih (front ++ [p])
    rw [List.append_assoc, List.length_append] at hps
    by_cases h : p.lexeme.isTrivia = true
    · simpa [wordIndexes, words, h] using hps
    · simpa [wordIndexes, words, h] using hps

end Placed

/-! ## moves -/

/-- How far a source has been read, and the events so far. -/
structure Cursor where
  position : Nat
  emitted : Nat
  events : List Event
  deriving Inhabited

namespace Cursor

/-- The lexemes of a source, each in its place. -/
def lexemes (source : String) : List Placed := Placed.ofLexemes 0 (Lexeme.lex source)

/-- The indexes of the words of a source among its lexemes. -/
def significant (source : String) : List Nat := Placed.wordIndexes 0 (lexemes source)

/-- Nothing is read. -/
def start : Cursor := ⟨0, 0, []⟩

/-- One more event. -/
def emit (e : Event) (c : Cursor) : Cursor := { c with events := c.events ++ [e] }

variable (source : String)

/-- Hand the next `n` lexemes on. -/
def hand? : Nat → Cursor → Option Cursor
  | 0, c => some c
  | n + 1, c =>
    match (lexemes source)[c.emitted]? with
    | none => none
    | some p =>
      hand? n { c with
        emitted := c.emitted + 1
        events := c.events ++ [.token p.lexeme.kind p.span] }

/-- Hand the trivia before the next word on; after the last word, all that is left. -/
def flush? (c : Cursor) : Option Cursor :=
  let target := ((significant source)[c.position]?).getD (lexemes source).length
  hand? source (target - c.emitted) c

/-- Pass the next word; at the end only hand the trivia on. -/
def bump? (c : Cursor) : Option Cursor :=
  (flush? source c).bind fun c =>
    match (significant source)[c.position]? with
    | none => some c
    | some i =>
      match (lexemes source)[i]? with
      | none => none
      | some p =>
        some ⟨c.position + 1, i + 1, c.events ++ [.token p.lexeme.kind p.span]⟩

/-- Open a node at the next word. -/
def start? (k : Kind) (c : Cursor) : Option Cursor :=
  (flush? source c).map (emit (.start k))

/-- Report a fault at the next word, or at the end of the source. -/
def fault? (f : Fault) (c : Cursor) : Option Cursor :=
  match (significant source)[c.position]? with
  | none =>
    let size := Lexeme.sizeOfAll (Lexeme.lex source)
    some (emit (.error f.message (some ⟨size, size⟩)) c)
  | some i =>
    match (lexemes source)[i]? with
    | none => none
    | some p => some (emit (.error f.message (some p.span)) c)

/-- Open a node at a mark. -/
def openAt (mark : Nat) (k : Kind) (c : Cursor) : Cursor :=
  { c with events := Event.openAt mark k c.events }

/-- Hand all on that is left. -/
def handRest? (c : Cursor) : Option Cursor :=
  (hand? source ((lexemes source).length - c.emitted) c).map fun c =>
    { c with position := (significant source).length }

/-! ## drawing a sketch -/

/-- A node that is yet to be opened: after how many parts, at which mark, of which kind. -/
structure Pending where
  parts : Nat
  mark : Nat
  kind : Kind

/-- Open a pending node at the latest. -/
def settle : Option Pending → Cursor → Cursor
  | none, c => c
  | some p, c => openAt p.mark p.kind c

variable (opening : Kind → List Sketch → Option Nat)

mutual

/-- Draw a sketch. A node is opened when it begins, unless `opening` says after how many of
its parts. -/
def play? : Sketch → Cursor → Option Cursor
  | .word _, c => bump? source c
  | .node k parts, c =>
    match opening k parts with
    | none => ((start? source k c).bind (playAll? none parts)).map (emit .finish)
    | some n =>
      ((flush? source c).bind fun c =>
        playAll? (some ⟨n, c.events.length, k⟩) parts c).map (emit .finish)
  | .fault f, c => fault? source f c
  | .gap, c => flush? source c

/-- Draw a run of sketches, and open the pending node around them in time. -/
def playAll? : Option Pending → List Sketch → Cursor → Option Cursor
  | pending, [], c => some (settle pending c)
  | none, s :: ss, c => (play? s c).bind (playAll? none ss)
  | some ⟨0, mark, k⟩, s :: ss, c => (play? s (openAt mark k c)).bind (playAll? none ss)
  | some ⟨n + 1, mark, k⟩, s :: ss, c => (play? s c).bind (playAll? (some ⟨n, mark, k⟩) ss)

end

/-- Draw a source file: its items, what is left after them, and the node around all. -/
def run? : Option (List Event) :=
  let items := Grammar.fileItems (Word.ofLexemes (Lexeme.lex source))
  (((playAll? source opening none items.sketches (emit (.start .sourceFile) start)).bind
    (handRest? source)).map (emit .finish)).map (·.events)

/-! ## the invariant -/

/-- A cursor between what was handed on and what is left: the words passed are those of the
former. -/
structure At (c : Cursor) (front rest : List Placed) : Prop where
  lexemes_eq : lexemes source = front ++ rest
  emitted_eq : c.emitted = front.length
  position_eq : c.position = (Placed.words front).length

variable {source} {c : Cursor} {front rest : List Placed}

namespace At

theorem getElem?_significant (h : At source c front rest) :
    (significant source)[c.position]? = (Placed.wordIndexes front.length rest).head? := by
  rw [significant, h.lexemes_eq, Placed.wordIndexes_append, Nat.zero_add, h.position_eq,
    ← Placed.length_wordIndexes 0 front, List.getElem?_append_right (Nat.le_refl _),
    Nat.sub_self, List.head?_eq_getElem?]

theorem emit (h : At source c front rest) (e : Event) : At source (c.emit e) front rest :=
  ⟨h.lexemes_eq, h.emitted_eq, h.position_eq⟩

theorem openAt (h : At source c front rest) (mark : Nat) (k : Kind) :
    At source (c.openAt mark k) front rest :=
  ⟨h.lexemes_eq, h.emitted_eq, h.position_eq⟩

end At

/-- The indexes of words lead to the words. -/
theorem getElem?_lexemes_of_significant {k i : Nat} (h : (significant source)[k]? = some i) :
    ∃ p, (lexemes source)[i]? = some p ∧ (Placed.words (lexemes source))[k]? = some p := by
  have hmap := Placed.map_getElem?_wordIndexes [] (lexemes source)
  have hk := congrArg (·[k]?) hmap
  simp only [List.nil_append, List.length_nil, List.getElem?_map] at hk
  rw [← significant, h, Option.map_some] at hk
  cases hw : (Placed.words (lexemes source))[k]? with
  | none => rw [hw] at hk; cases hk
  | some p =>
    rw [hw, Option.map_some] at hk
    exact ⟨p, Option.some.inj hk, rfl⟩

@[simp] theorem length_significant :
    (significant source).length = (Placed.words (lexemes source)).length :=
  Placed.length_wordIndexes ..

/-- Handing lexemes on never leaves them. -/
theorem hand?_eq {before after : List Placed} (h : At source c front (before ++ after)) :
    hand? source before.length c =
      some ⟨c.position, c.emitted + before.length,
        c.events ++ Marked.eventsOfAll (before.map .token)⟩ := by
  obtain ⟨hlex, hemit, -⟩ := h
  induction before generalizing c front with
  | nil => simp [hand?, Marked.eventsOfAll]
  | cons p before ih =>
    have hp : (lexemes source)[c.emitted]? = some p := by
      rw [hlex, hemit, List.getElem?_append_right (Nat.le_refl _), Nat.sub_self]
      rfl
    have hrest := @ih
      ⟨c.position, c.emitted + 1, c.events ++ [.token p.lexeme.kind p.span]⟩ (front ++ [p])
      (by rw [hlex, List.append_assoc]; rfl) (by rw [hemit, List.length_append]; rfl)
    simp only [List.length_cons, hand?, hp]
    rw [hrest]
    simp only [List.map_cons, Marked.eventsOfAll, Marked.events, List.append_assoc]
    congr 2
    omega

/-! ## what the moves do -/

/-- From a cursor to another one by handing marked trees on. -/
structure Draws (source : String) (c : Cursor) (front : List Placed) (ms : List Marked)
    (rest : List Placed) (c' : Cursor) : Prop where
  at_end : At source c' (front ++ Marked.placedOfAll ms) rest
  events_eq : c'.events = c.events ++ Marked.eventsOfAll ms

theorem Draws.trans {c' c'' : Cursor} {ms ns : List Marked} {rest' : List Placed}
    (h : Draws source c front ms rest c')
    (h' : Draws source c' (front ++ Marked.placedOfAll ms) ns rest' c'') :
    Draws source c front (ms ++ ns) rest' c'' := by
  constructor
  · rw [Marked.placedOfAll_append, ← List.append_assoc]
    exact h'.at_end
  · rw [h'.events_eq, h.events_eq, Marked.eventsOfAll_append, List.append_assoc]

theorem At.settle (h : At source c front rest) (pending : Option Pending) :
    At source (c.settle pending) front rest := by
  cases pending with
  | none => exact h
  | some p => exact h.openAt p.mark p.kind

theorem At.draws_nil (h : At source c front rest) : Draws source c front [] rest c :=
  ⟨by simpa [Marked.placedOfAll] using h, (List.append_nil _).symm⟩

/-- The events of a node around what was drawn since it was opened. -/
theorem Draws.node {c' opened : Cursor} {ms : List Marked} {k : Kind}
    (h : Draws source opened front ms rest c')
    (ho : opened.events = c.events ++ [.start k]) :
    Draws source c front [.node k ms] rest (c'.emit .finish) := by
  constructor
  · simpa [Marked.placedOfAll, Marked.placed] using h.at_end.emit .finish
  · simp only [emit, h.events_eq, ho, Marked.eventsOfAll, Marked.events, List.append_assoc,
      List.append_nil, List.cons_append, List.nil_append]

theorem At.draws_fault {f : Fault} {span : Span} {c' : Cursor} (h : At source c' front rest)
    (he : c'.events = c.events ++ [.error f.message (some span)]) :
    Draws source c front [.fault f span] rest c' :=
  ⟨by simpa [Marked.placedOfAll, Marked.placed] using h, he⟩

/-- The trivia before the next word is handed on, and nothing else. -/
theorem flush?_eq (h : At source c front rest) :
    ∃ c', flush? source c = some c' ∧
      Draws source c front (Marked.leading rest).1 (Marked.leading rest).2 c' := by
  obtain ⟨before, hbefore⟩ : ∃ before, before = rest.takeWhile (·.lexeme.isTrivia) := ⟨_, rfl⟩
  have hsplit : before ++ (Marked.leading rest).2 = rest := by
    rw [hbefore]
    exact List.takeWhile_append_dropWhile
  have htrivia : ∀ p ∈ before, p.lexeme.isTrivia = true := fun p hp => by
    rw [hbefore] at hp
    simpa using List.mem_takeWhile_imp hp
  -- the trivia goes up to the next word, or to the end if there is none
  have htarget : ((significant source)[c.position]?).getD (lexemes source).length =
      front.length + before.length := by
    rw [h.getElem?_significant, ← hsplit, Placed.wordIndexes_append,
      Placed.wordIndexes_of_trivia _ htrivia, List.nil_append]
    obtain ⟨hnil, -⟩ | ⟨p, r, hcons, hp, -⟩ := Marked.leading_cases rest
    · rw [hnil, h.lexemes_eq, ← hsplit, hnil]
      simp [Placed.wordIndexes]
    · rw [hcons]
      simp [Placed.wordIndexes, hp]
  have hat : At source c front (before ++ (Marked.leading rest).2) := by rwa [hsplit]
  have hn : front.length + before.length - c.emitted = before.length := by
    rw [h.emitted_eq]
    omega
  refine ⟨_, by rw [flush?, htarget, hn, hand?_eq hat], ⟨?_, ?_, ?_⟩, ?_⟩
  · rw [h.lexemes_eq, List.append_assoc, Marked.placedOfAll_leading]
  · simp [Marked.leading, h.emitted_eq, hbefore]
  · have hw : Placed.words before = [] := by
      rw [Placed.words, List.filter_eq_nil_iff]
      simpa using htrivia
    simp only [Marked.leading, Marked.placedOfAll_map_token, Placed.words_append,
      List.length_append, ← hbefore, hw, h.position_eq]
    rfl
  · simp only [Marked.leading, hbefore]

/-- Passing a word hands on the trivia before it and the word itself. -/
theorem bump?_eq (w : Word) (h : At source c front rest) (size : Nat) :
    ∃ c', bump? source c = some c' ∧
      Draws source c front (Sketch.lay size (.word w) rest).1
        (Sketch.lay size (.word w) rest).2 c' := by
  obtain ⟨c₁, hflush, hdraws⟩ := flush?_eq h
  have hhead := hdraws.at_end.getElem?_significant
  rw [bump?, hflush, Option.bind_some, Sketch.lay_word]
  obtain ⟨hnil, -⟩ | ⟨p, r, hcons, hp, -⟩ := Marked.leading_cases rest
  · rw [hnil] at hhead hdraws ⊢
    rw [hhead]
    exact ⟨c₁, rfl, hdraws⟩
  · rw [hcons] at hhead hdraws ⊢
    have hlex : (lexemes source)[(front ++ Marked.placedOfAll (Marked.leading rest).1).length]? =
        some p := by
      rw [hdraws.at_end.lexemes_eq, List.getElem?_append_right (Nat.le_refl _), Nat.sub_self]
      rfl
    simp only [Placed.wordIndexes, hp, Bool.false_eq_true, if_false, List.head?_cons] at hhead
    simp only [hhead, hlex]
    refine ⟨_, rfl, hdraws.trans ⟨⟨?_, ?_, ?_⟩, ?_⟩⟩
    · rw [hdraws.at_end.lexemes_eq]
      simp [Marked.placedOfAll, Marked.placed]
    · simp [Marked.placedOfAll, Marked.placed, Nat.add_assoc]
    · rw [hdraws.at_end.position_eq]
      simp [Marked.placedOfAll, Marked.placed, Placed.words, hp, Nat.add_assoc]
    · rfl

/-- A fault is reported at the next word or at the end of the source. -/
theorem fault?_eq (f : Fault) (h : At source c front rest) :
    ∃ c', fault? source f c = some c' ∧
      Draws source c front
        [.fault f (Placed.nextSpan (Lexeme.sizeOfAll (Lexeme.lex source)) rest)] rest c' := by
  have hempty : Placed.words rest = (Placed.words (lexemes source)).drop c.position := by
    rw [h.lexemes_eq, Placed.words_append, h.position_eq, List.drop_left]
  rw [fault?, Placed.nextSpan_eq_headSpan, hempty]
  cases hk : (significant source)[c.position]? with
  | none =>
    have hle := List.getElem?_eq_none_iff.1 hk
    rw [length_significant] at hle
    rw [List.drop_eq_nil_of_le hle]
    exact ⟨_, rfl, (h.emit _).draws_fault rfl⟩
  | some i =>
    obtain ⟨p, hp, hw⟩ := getElem?_lexemes_of_significant hk
    rw [List.getElem?_eq_some_iff] at hw
    obtain ⟨hlt, rfl⟩ := hw
    rw [List.drop_eq_getElem_cons hlt]
    simp only [hp]
    exact ⟨_, rfl, (h.emit _).draws_fault rfl⟩

/-! ## what a sketch draws -/

/-- The mark of a pending node lies within some events. -/
def Pending.Within (events : List Event) : Option Pending → Prop
  | none => True
  | some p => p.mark ≤ events.length

theorem Pending.Within.append {events : List Event} {pending : Option Pending}
    (h : Within events pending) (more : List Event) : Within (events ++ more) pending := by
  cases pending with
  | none => exact True.intro
  | some p => exact Nat.le_trans h (by rw [List.length_append]; omega)

/-- A node opened at a mark does not disturb what is recorded after it. -/
theorem openAt_append {mark : Nat} {events : List Event} (h : mark ≤ events.length) (k : Kind)
    (more : List Event) :
    Event.openAt mark k (events ++ more) = Event.openAt mark k events ++ more := by
  rw [Event.openAt, Event.openAt, List.take_append_of_le_length h,
    List.drop_append_of_le_length h, List.append_assoc, List.cons_append]

theorem Draws.openAt {c' : Cursor} {ms : List Marked} {front' : List Placed}
    (h : Draws source c front' ms rest c') {mark : Nat} (hm : mark ≤ c.events.length)
    (k : Kind) : Draws source (c.openAt mark k) front' ms rest (c'.openAt mark k) := by
  refine ⟨h.at_end.openAt _ _, ?_⟩
  show Event.openAt mark k c'.events = Event.openAt mark k c.events ++ _
  rw [h.events_eq, openAt_append hm]

variable (opening : Kind → List Sketch → Option Nat)

mutual

/-- Drawing a sketch never fails and gives the events of the sketch laid over what is left,
whenever the nodes are opened. -/
theorem play?_eq (s : Sketch) {c : Cursor} {front rest : List Placed}
    (h : At source c front rest) :
    ∃ c', play? source opening s c = some c' ∧
      Draws source c front (s.lay (Lexeme.sizeOfAll (Lexeme.lex source)) rest).1
        (s.lay (Lexeme.sizeOfAll (Lexeme.lex source)) rest).2 c' := by
  cases s with
  | word w =>
    rw [play?]
    exact bump?_eq w h _
  | node k parts =>
    obtain ⟨c₁, hflush, hdraws⟩ := flush?_eq h
    rw [play?, Sketch.lay_node]
    -- opened when it begins or later, the node starts where its first part does
    cases hopen : opening k parts with
    | none =>
      obtain ⟨c₂, hplay, hparts⟩ :=
        playAll?_eq none parts (hdraws.at_end.emit (.start k)) True.intro
      refine ⟨c₂.emit .finish, ?_, hdraws.trans (hparts.node rfl)⟩
      simp only [start?, hflush, Option.map_some, Option.bind_some, hplay]
    | some n =>
      obtain ⟨c₂, hplay, hparts⟩ :=
        playAll?_eq (some ⟨n, c₁.events.length, k⟩) parts hdraws.at_end (Nat.le_refl _)
      refine ⟨c₂.emit .finish, ?_, hdraws.trans (hparts.node ?_)⟩
      · simp only [hflush, Option.map_some, Option.bind_some, hplay]
      · simp [settle, openAt, Event.openAt]
  | fault f =>
    rw [play?]
    exact fault?_eq f h
  | gap =>
    rw [play?]
    exact flush?_eq h

/-- Drawing a run of sketches never fails and gives their events, after the pending node
around them is opened. -/
theorem playAll?_eq (pending : Option Pending) (ss : List Sketch) {c : Cursor}
    {front rest : List Placed} (h : At source c front rest)
    (hp : Pending.Within c.events pending) :
    ∃ c', playAll? source opening pending ss c = some c' ∧
      Draws source (settle pending c) front
        (Sketch.layAll (Lexeme.sizeOfAll (Lexeme.lex source)) ss rest).1
        (Sketch.layAll (Lexeme.sizeOfAll (Lexeme.lex source)) ss rest).2 c' := by
  cases ss with
  | nil =>
    rw [playAll?]
    exact ⟨_, rfl, (h.settle pending).draws_nil⟩
  | cons s ss =>
    rw [Sketch.layAll_cons]
    match pending, hp with
    | none, _ =>
      obtain ⟨c₁, hplay, hs⟩ := play?_eq s h
      obtain ⟨c₂, hplays, hss⟩ := playAll?_eq none ss hs.at_end True.intro
      exact ⟨c₂, by rw [playAll?, hplay, Option.bind_some, hplays], hs.trans hss⟩
    | some ⟨0, mark, k⟩, hp =>
      obtain ⟨c₁, hplay, hs⟩ := play?_eq s (h.openAt mark k)
      obtain ⟨c₂, hplays, hss⟩ := playAll?_eq none ss hs.at_end True.intro
      exact ⟨c₂, by rw [playAll?, hplay, Option.bind_some, hplays], hs.trans hss⟩
    | some ⟨n + 1, mark, k⟩, hp =>
      obtain ⟨c₁, hplay, hs⟩ := play?_eq s h
      have hp₁ : Pending.Within c₁.events (some ⟨n, mark, k⟩) := by
        rw [hs.events_eq]
        exact Pending.Within.append hp _
      obtain ⟨c₂, hplays, hss⟩ := playAll?_eq (some ⟨n, mark, k⟩) ss hs.at_end hp₁
      refine ⟨c₂, by rw [playAll?, hplay, Option.bind_some, hplays], ?_⟩
      exact (hs.openAt hp k).trans hss

end

/-- Drawing a source file never fails and gives its events, whenever the nodes are opened. -/
theorem run?_eq (source : String) : run? source opening = some (fileEvents source) := by
  have hstart : At source (emit (.start .sourceFile) start) [] (lexemes source) :=
    ⟨rfl, rfl, rfl⟩
  obtain ⟨c₁, hplay, hdraws⟩ := playAll?_eq opening none
    (Grammar.fileItems (Word.ofLexemes (Lexeme.lex source))).sketches hstart True.intro
  have hat := hdraws.at_end
  obtain ⟨tail, htail⟩ : ∃ tail, tail = (Sketch.layAll (Lexeme.sizeOfAll (Lexeme.lex source))
    (Grammar.fileItems (Word.ofLexemes (Lexeme.lex source))).sketches (lexemes source)).2 :=
    ⟨_, rfl⟩
  rw [← htail] at hat
  have hlen : (lexemes source).length - c₁.emitted = tail.length := by
    rw [hat.lexemes_eq, hat.emitted_eq, List.length_append, Nat.add_sub_cancel_left]
  rw [← List.append_nil tail] at hat
  have hhand := hand?_eq hat
  simp only [run?, hplay, Option.bind_some, handRest?, hlen, hhand, Option.map_some]
  rw [fileEvents, parseMarked, Marked.events, markedParts, Marked.eventsOfAll_append]
  simp only [emit, hdraws.events_eq, settle, htail, start, List.nil_append, List.cons_append,
    List.append_assoc]
  rfl

end Cursor

end SwiftOutline

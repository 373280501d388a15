import Mathlib.Data.List.DropRight
import SwiftOutline.Proofs.Readback

/-!
# SwiftOutline.Proofs.Shown

Which shapes of types are shown alike.

* `Nesting` — how deep in brackets a text has got;
* `Closed` — texts whose brackets close, with no comma and no colon outside of them; such a text is
  told from what closes it (`Closed.append_inj`);
* `TypeShape.parted` — a shape of which every question mark at the end of a simple type is an
  optional, and an optional closure is one in parentheses of its own;
* `TypeShape.eq_of_chars` — parted shapes are told by their texts;
* `text_eq_iff` — so two shapes are shown alike just if they are the same shape once parted.

Texts of simple types are taken as they are, as long as their brackets close and they start with a
name that is none of those with a shape of its own. Not all types of a source file are such: the
composition `(A & B) & C` starts with a parenthesis. Which ones are is told in Proofs.Legible.
-/

namespace SwiftOutline

/-! ## brackets -/

/-- How many brackets are open, and whether a dash stands right before, which makes an arrow of an
angle. -/
structure Nesting where
  depth : Nat
  dash : Bool
  deriving DecidableEq

namespace Nesting

/-- Outside of all brackets. -/
def outside : Nesting := ⟨0, false⟩

/-- The nesting behind a character. There is none if it closes what is not open, or is a comma or a
colon outside of brackets. -/
def step (d : Nesting) (c : Char) : Option Nesting :=
  if c ∈ ['(', '[', '<'] then some ⟨d.depth + 1, false⟩
  else if c = '>' ∧ d.dash = true then some ⟨d.depth, false⟩
  else if c ∈ [')', ']', '>'] then
    if d.depth = 0 then none else some ⟨d.depth - 1, false⟩
  else if d.depth = 0 ∧ c ∈ [',', ':'] then none
  else some ⟨d.depth, c == '-'⟩

/-- The nesting behind a text. -/
def behind (d : Nesting) (cs : List Char) : Option Nesting := cs.foldlM step d

@[simp] theorem behind_nil (d : Nesting) : d.behind [] = some d := rfl

theorem behind_append (d : Nesting) (cs ds : List Char) :
    d.behind (cs ++ ds) = (d.behind cs).bind (·.behind ds) := List.foldlM_append

/-- Inside further brackets a character does the same. -/
theorem step_deeper {d e : Nesting} {c : Char} (k : Nat) (h : d.step c = some e) :
    step ⟨d.depth + k, d.dash⟩ c = some ⟨e.depth + k, e.dash⟩ := by
  unfold step at h ⊢
  split at h
  · next hopen =>
    cases h
    rw [if_pos hopen, Nat.add_right_comm]
  next hopen =>
  rw [if_neg hopen]
  split at h
  · next harrow =>
    cases h
    rw [if_pos harrow]
  next harrow =>
  rw [if_neg harrow]
  split at h
  · next hclose =>
    rw [if_pos hclose]
    split at h
    · cases h
    · next hdepth =>
      cases h
      rw [if_neg (by dsimp only; omega), Nat.sub_add_comm (Nat.pos_of_ne_zero hdepth)]
  next hclose =>
  rw [if_neg hclose]
  split at h
  · cases h
  · next hmark =>
    cases h
    rw [if_neg fun hboth => hmark ⟨Nat.eq_zero_of_add_eq_zero_right hboth.1, hboth.2⟩]

theorem behind_deeper {d e : Nesting} {cs : List Char} (k : Nat) (h : d.behind cs = some e) :
    behind ⟨d.depth + k, d.dash⟩ cs = some ⟨e.depth + k, e.dash⟩ := by
  induction cs generalizing d with
  | nil =>
    cases h
    rfl
  | cons c cs ih =>
    obtain ⟨d', hstep, hbehind⟩ := Option.bind_eq_some_iff.1 h
    exact Option.bind_eq_some_iff.2 ⟨_, step_deeper k hstep, ih hbehind⟩

end Nesting

open Nesting (outside behind_append)

/-- A text whose brackets close, without commas and colons outside of them. -/
def Closed (cs : List Char) : Prop := outside.behind cs = some outside

instance (cs : List Char) : Decidable (Closed cs) :=
  inferInstanceAs (Decidable (outside.behind cs = some outside))

/-- What stands there closes or parts texts, or is nothing. -/
def Closes (cs : List Char) : Prop := ∀ c ∈ cs.head?, c ∈ [')', ']', '>', ',', ':']

namespace Closed

variable {cs ds us vs : List Char}

/-- Inside brackets such a text changes nothing. -/
theorem behind_inside (h : Closed cs) (n : Nat) (ds : List Char) :
    Nesting.behind ⟨n, false⟩ (cs ++ ds) = Nesting.behind ⟨n, false⟩ ds := by
  have hdeeper : Nesting.behind ⟨0 + n, false⟩ cs = some ⟨0 + n, false⟩ :=
    Nesting.behind_deeper n h
  rw [Nat.zero_add] at hdeeper
  rw [behind_append, hdeeper]
  rfl

theorem append (h : Closed cs) (hds : Closed ds) : Closed (cs ++ ds) :=
  (h.behind_inside 0 ds).trans hds

/-- What closes a text is no part of it. -/
theorem not_append {c : Char} (h : Closed cs) (hc : c ∈ [')', ']', '>', ',', ':']) :
    ¬Closed (cs ++ c :: ds) := by
  have hstep : ∀ c ∈ [')', ']', '>', ',', ':'], Nesting.step outside c = none := by
    simp [Nesting.step, outside]
  intro hboth
  have hrest : outside.behind (c :: ds) = some outside := (h.behind_inside 0 _).symm.trans hboth
  rw [Nesting.behind, List.foldlM_cons, hstep c hc] at hrest
  cases hrest

/-- Two such texts, each with something behind it that closes it, are the same if all is. -/
theorem append_inj (h : Closed cs) (hds : Closed ds) (hus : Closes us) (hvs : Closes vs)
    (heq : cs ++ us = ds ++ vs) : cs = ds ∧ us = vs := by
  have hshorter {as bs ws : List Char} (has : Closed as) (hbs : Closed bs) (hws : Closes ws)
      {xs : List Char} (hb : bs = as ++ xs) (hw : ws = xs ++ (ws.drop xs.length)) : xs = [] := by
    cases xs with
    | nil => rfl
    | cons x xs =>
      rw [hb] at hbs
      refine absurd hbs (has.not_append (hws x ?_))
      rw [hw]
      rfl
  obtain ⟨xs, hd, hu⟩ | ⟨xs, hc, hv⟩ := List.append_eq_append_iff.1 heq
  · obtain rfl := hshorter h hds hus hd (by rw [hu, List.drop_left])
    exact ⟨by simpa using hd.symm, by simpa using hu⟩
  · obtain rfl := hshorter hds h hvs hc (by rw [hv, List.drop_left])
    exact ⟨by simpa using hc, by simpa using hv.symm⟩

end Closed

theorem closes_cons {c : Char} (hc : c ∈ [')', ']', '>', ',', ':']) (cs : List Char) :
    Closes (c :: cs) := by
  rintro _ ⟨⟩
  exact hc

/-! ## lists -/

section

variable {css dss : List (List Char)}

open Grammar (commaText)

/-- Commas inside brackets change nothing. -/
theorem behind_commas (h : ∀ cs ∈ css, Closed cs) (n : Nat) (ds : List Char) :
    Nesting.behind ⟨n + 1, false⟩ (css.flatMap (',' :: ' ' :: ·) ++ ds) =
      Nesting.behind ⟨n + 1, false⟩ ds := by
  induction css with
  | nil => rfl
  | cons cs css ih =>
    obtain ⟨hcs, hothers⟩ := List.forall_mem_cons.1 h
    rw [List.flatMap_cons, List.append_assoc]
    exact (hcs.behind_inside (n + 1) _).trans (ih hothers)

theorem behind_commaText (h : ∀ cs ∈ css, Closed cs) (n : Nat) (ds : List Char) :
    Nesting.behind ⟨n + 1, false⟩ (commaText css ++ ds) = Nesting.behind ⟨n + 1, false⟩ ds := by
  cases css with
  | nil => rfl
  | cons cs css =>
    obtain ⟨hcs, hothers⟩ := List.forall_mem_cons.1 h
    rw [commaText, List.append_assoc, hcs.behind_inside, behind_commas hothers]

theorem closes_commas (css : List (List Char)) (us : List Char) :
    Closes (css.flatMap (',' :: ' ' :: ·) ++ ')' :: us) := by
  cases css with
  | nil => exact closes_cons (by decide) _
  | cons cs css => exact closes_cons (by decide) _

theorem commas_inj {us vs : List Char} (hcss : ∀ cs ∈ css, Closed cs)
    (hdss : ∀ ds ∈ dss, Closed ds)
    (h : css.flatMap (',' :: ' ' :: ·) ++ ')' :: us = dss.flatMap (',' :: ' ' :: ·) ++ ')' :: vs) :
    css = dss ∧ us = vs := by
  induction css generalizing dss with
  | nil =>
    cases dss with
    | nil => exact ⟨rfl, (List.cons.inj h).2⟩
    | cons ds dss => exact absurd (List.cons.inj h).1 (by decide)
  | cons cs css ih =>
    cases dss with
    | nil => exact absurd (List.cons.inj h).1 (by decide)
    | cons ds dss =>
      obtain ⟨hcs, hothers⟩ := List.forall_mem_cons.1 hcss
      obtain ⟨hds, hothers'⟩ := List.forall_mem_cons.1 hdss
      rw [List.flatMap_cons, List.flatMap_cons, List.append_assoc, List.append_assoc] at h
      have hrest := (List.cons.inj (List.cons.inj h).2).2
      obtain ⟨rfl, hmore⟩ :=
        hcs.append_inj hds (closes_commas css us) (closes_commas dss vs) hrest
      obtain ⟨rfl, htail⟩ := ih hothers hothers' hmore
      exact ⟨rfl, htail⟩

/-- Texts with commas between them, before a closing parenthesis, are told apart. -/
theorem commaText_inj {us vs : List Char} (hcss : ∀ cs ∈ css, Closed cs ∧ cs ≠ [])
    (hdss : ∀ ds ∈ dss, Closed ds ∧ ds ≠ [])
    (h : commaText css ++ ')' :: us = commaText dss ++ ')' :: vs) : css = dss ∧ us = vs := by
  -- no text starts with what closes texts
  have hnone {cs ds us : List Char} (hcs : Closed cs ∧ cs ≠ []) (hds : Closes ds)
      (heq : ')' :: us = cs ++ ds) : False := by
    have hnil : Closed [] := rfl
    exact hcs.2 (hnil.append_inj hcs.1 (closes_cons (by decide) us) hds heq).1.symm
  cases css with
  | nil =>
    cases dss with
    | nil => exact ⟨rfl, (List.cons.inj h).2⟩
    | cons ds dss =>
      rw [commaText, commaText, List.append_assoc] at h
      exact (hnone (List.forall_mem_cons.1 hdss).1 (closes_commas dss vs) h).elim
  | cons cs css =>
    obtain ⟨hcs, hothers⟩ := List.forall_mem_cons.1 hcss
    cases dss with
    | nil =>
      rw [commaText, commaText, List.append_assoc] at h
      exact (hnone hcs (closes_commas css us) h.symm).elim
    | cons ds dss =>
      obtain ⟨hds, hothers'⟩ := List.forall_mem_cons.1 hdss
      rw [commaText, commaText, List.append_assoc, List.append_assoc] at h
      obtain ⟨rfl, hrest⟩ :=
        hcs.1.append_inj hds.1 (closes_commas css us) (closes_commas dss vs) h
      obtain ⟨rfl, htail⟩ := commas_inj (fun cs h => (hothers cs h).1)
        (fun ds h => (hothers' ds h).1) hrest
      exact ⟨rfl, htail⟩

end

/-! ## parted shapes -/

/-- What a text of a type starts with. -/
inductive Opening where
  | bracket
  | parenthesis
  | set
  | result
  | void
  | name
  deriving DecidableEq

/-- What a text starts with, if it is that of a type. -/
def Opening.ofChars : List Char → Opening
  | '[' :: _ => .bracket
  | '(' :: _ => .parenthesis
  | '@' :: _ => .parenthesis
  | 'S' :: 'e' :: 't' :: '<' :: _ => .set
  | 'R' :: 'e' :: 's' :: 'u' :: 'l' :: 't' :: '<' :: _ => .result
  | ['V', 'o', 'i', 'd'] => .void
  | _ => .name

/-- A text of a simple type: its brackets close, and it starts with a name of no other type. -/
structure IsSimple (cs : List Char) : Prop where
  closed : Closed cs
  ne_nil : cs ≠ []
  last : cs.getLast? ≠ some '?'
  opening : Opening.ofChars cs = .name

namespace TypeShape

/-- Whether a type is one of functions. -/
def isClosure : TypeShape → Bool
  | closure .. => true
  | _ => false

/-- A closure in parentheses of its own. -/
def inParentheses : TypeShape → TypeShape
  | closure inputs isAsync isThrowing isEscaping output =>
    tuple [closure inputs isAsync isThrowing isEscaping output]
  | t => t

/-- A simple type by its characters from behind. The question marks at its end are optionals. -/
def ofReversed : List Char → TypeShape
  | '?' :: cs => optional (ofReversed cs)
  | cs => simple (String.ofList cs.reverse)

mutual

/-- A shape with all question marks apart from what they stand behind. -/
def parted : TypeShape → TypeShape
  | empty => empty
  | simple x => ofReversed x.toList.reverse
  | optional t => optional (parted t).inParentheses
  | array t => array (parted t)
  | set t => set (parted t)
  | dictionary k v => dictionary (parted k) (parted v)
  | tuple ts => tuple (partedAll ts)
  | closure inputs isAsync isThrowing isEscaping output =>
    closure (partedAll inputs) isAsync isThrowing isEscaping (parted output)
  | result s f => result (parted s) (parted f)
  | void => void

def partedAll : List TypeShape → List TypeShape
  | [] => []
  | t :: ts => parted t :: partedAll ts

end

mutual

/-- No type is missing, and the texts of simple types, up to the question marks at their ends, are
such texts. -/
def Legible : TypeShape → Prop
  | empty => False
  | simple x => IsSimple (x.toList.rdropWhile (· == '?'))
  | optional t => Legible t
  | array t => Legible t
  | set t => Legible t
  | dictionary k v => Legible k ∧ Legible v
  | tuple ts => LegibleAll ts
  | closure inputs _ _ _ output => LegibleAll inputs ∧ Legible output
  | result s f => Legible s ∧ Legible f
  | void => True

/-- So for lists of shapes. -/
def LegibleAll : List TypeShape → Prop
  | [] => True
  | t :: ts => Legible t ∧ LegibleAll ts

end

mutual

/-- A legible shape with all question marks apart. -/
def Parted : TypeShape → Prop
  | empty => False
  | simple x => IsSimple x.toList
  | optional t => t.isClosure = false ∧ Parted t
  | array t => Parted t
  | set t => Parted t
  | dictionary k v => Parted k ∧ Parted v
  | tuple ts => PartedAll ts
  | closure inputs _ _ _ output => PartedAll inputs ∧ Parted output
  | result s f => Parted s ∧ Parted f
  | void => True

/-- So for lists of shapes. -/
def PartedAll : List TypeShape → Prop
  | [] => True
  | t :: ts => Parted t ∧ PartedAll ts

end

/-! ### their texts -/

theorem chars_optional {t : TypeShape} (h : t.isClosure = false) :
    (optional t).chars = t.chars ++ ['?'] := by
  have htext : (optional t).text = t.text ++ "?" := by cases t <;> first | rfl | cases h
  rw [chars, htext, String.toList_append]
  rfl

theorem behind_effectText (isAsync isThrowing : Bool) (cs : List Char) :
    Nesting.outside.behind (Grammar.effectText isAsync isThrowing ++ Grammar.arrowText cs) =
      Nesting.outside.behind cs := by
  cases isAsync <;> cases isThrowing <;> rfl

theorem closed_closure {inputs : List TypeShape} {s : TypeShape}
    (h : ∀ cs ∈ inputs.map chars, Closed cs) (hs : Closed s.chars)
    (isAsync isThrowing isEscaping : Bool) :
    Closed (closure inputs isAsync isThrowing isEscaping s).chars := by
  have hplain : Closed (closure inputs isAsync isThrowing false s).chars := by
    rw [chars_closure]
    refine (behind_commaText h 0 _).trans ?_
    exact (behind_effectText isAsync isThrowing s.chars).trans hs
  cases isEscaping with
  | false => exact hplain
  | true =>
    have hword : Closed "@escaping ".toList := by decide
    rw [chars_closure_escaping]
    exact hword.append hplain

theorem chars_ne_nil {s : TypeShape} (h : s.Parted) : s.chars ≠ [] := by
  cases s with
  | empty => exact h.elim
  | simple x => exact IsSimple.ne_nil h
  | optional t => rw [chars_optional h.1]; simp
  | array t => rw [chars_array]; simp
  | set t => rw [chars_set]; simp
  | dictionary k v => rw [chars_dictionary]; simp
  | tuple ts => rw [chars_tuple]; simp
  | closure inputs isAsync isThrowing isEscaping output =>
    cases isEscaping
    · rw [chars_closure]; simp
    · rw [chars_closure_escaping]; simp
  | result s f => rw [chars_result]; simp
  | void => decide

mutual

/-- The brackets of a text of a shape close. -/
theorem closed_chars {s : TypeShape} (h : s.Parted) : Closed s.chars := by
  cases s with
  | empty => exact h.elim
  | simple x => exact IsSimple.closed h
  | optional t =>
    rw [chars_optional h.1]
    exact (closed_chars h.2).append rfl
  | array t =>
    rw [chars_array]
    exact (closed_chars (s := t) h).behind_inside 1 [']']
  | set t =>
    rw [chars_set]
    exact (closed_chars (s := t) h).behind_inside 1 ['>']
  | dictionary k v =>
    rw [chars_dictionary]
    exact ((closed_chars h.1).behind_inside 1 _).trans ((closed_chars h.2).behind_inside 1 [']'])
  | tuple ts =>
    rw [chars_tuple]
    exact behind_commaText (closed_map_chars h) 0 [')']
  | closure inputs isAsync isThrowing isEscaping output =>
    exact closed_closure (closed_map_chars h.1) (closed_chars h.2) isAsync isThrowing isEscaping
  | result s f =>
    rw [chars_result]
    exact ((closed_chars h.1).behind_inside 1 _).trans ((closed_chars h.2).behind_inside 1 ['>'])
  | void => decide

theorem closed_map_chars {ts : List TypeShape} (h : PartedAll ts) :
    ∀ cs ∈ ts.map chars, Closed cs := by
  cases ts with
  | nil => simp
  | cons t ts =>
    rw [List.map_cons, List.forall_mem_cons]
    exact ⟨closed_chars h.1, closed_map_chars h.2⟩

end

theorem solid_map_chars {ts : List TypeShape} (h : PartedAll ts) :
    ∀ cs ∈ ts.map chars, Closed cs ∧ cs ≠ [] := by
  intro cs hcs
  refine ⟨closed_map_chars h cs hcs, ?_⟩
  induction ts with
  | nil => cases hcs
  | cons t ts ih =>
    obtain rfl | hmem := List.mem_cons.1 hcs
    · exact chars_ne_nil h.1
    · exact ih h.2 hmem

/-! ### telling them apart -/

/-- What the text of a shape starts with; an optional starts like what it wraps. -/
def opening? : TypeShape → Option Opening
  | empty | optional _ => none
  | simple _ => some .name
  | array _ | dictionary _ _ => some .bracket
  | set _ => some .set
  | tuple _ | closure .. => some .parenthesis
  | result _ _ => some .result
  | void => some .void

theorem opening?_eq {s : TypeShape} (h : s.Parted) (hs : s.isOptional = false) :
    s.opening? = some (Opening.ofChars s.chars) := by
  cases s with
  | empty => exact h.elim
  | simple x => exact congrArg some (IsSimple.opening h).symm
  | optional t => cases hs
  | array t => rw [chars_array]; rfl
  | set t => rw [chars_set]; rfl
  | dictionary k v => rw [chars_dictionary]; rfl
  | tuple ts => rw [chars_tuple]; rfl
  | closure inputs isAsync isThrowing isEscaping output =>
    cases isEscaping
    · rw [chars_closure]; rfl
    · rw [chars_closure_escaping]; rfl
  | result s f => rw [chars_result]; rfl
  | void => rfl

/-- Only optionals, and closures that return such, end with a question mark. -/
theorem getLast?_chars {s : TypeShape} (h : s.Parted) (hs : s.isOptional = false)
    (hclosure : s.isClosure = false) : s.chars.getLast? ≠ some '?' := by
  cases s with
  | empty => exact h.elim
  | simple x => exact IsSimple.last h
  | optional t => cases hs
  | array t => rw [chars_array]; simp [List.getLast?_cons]
  | set t => rw [chars_set]; simp [List.getLast?_cons, List.getLast?_append]
  | dictionary k v => rw [chars_dictionary]; simp [List.getLast?_cons, List.getLast?_append]
  | tuple ts => rw [chars_tuple]; simp [List.getLast?_cons]
  | closure => cases hclosure
  | result s f => rw [chars_result]; simp [List.getLast?_cons, List.getLast?_append]
  | void => decide

/-- Other types than tuples and closures start with no parenthesis and no attribute. -/
theorem ne_cons_of_opening {cs ds : List Char} {c : Char} (hc : c ∈ ['(', '@'])
    (h : Opening.ofChars cs ≠ .parenthesis) : cs ≠ c :: ds := by
  rintro rfl
  simp only [List.mem_cons, List.not_mem_nil, or_false] at hc
  obtain rfl | rfl := hc <;> exact h rfl

theorem exists_closure_cons (inputs : List TypeShape) (isAsync isThrowing isEscaping : Bool)
    (s : TypeShape) :
    ∃ c ∈ ['(', '@'], ∃ ds, (closure inputs isAsync isThrowing isEscaping s).chars = c :: ds := by
  cases isEscaping
  · exact ⟨'(', by decide, _, chars_closure ..⟩
  · exact ⟨'@', by decide, _, chars_closure_escaping ..⟩

/-- Behind the parentheses of a tuple stand question marks at most, and behind those of a closure an
arrow or an effect. -/
theorem chars_tuple_ne_closure {ts inputs : List TypeShape} (hts : PartedAll ts)
    (hinputs : PartedAll inputs) (isAsync isThrowing isEscaping : Bool) (s : TypeShape) (n : Nat) :
    (tuple ts).chars ++ List.replicate n '?' ≠
      (closure inputs isAsync isThrowing isEscaping s).chars := by
  intro h
  rw [chars_tuple] at h
  cases isEscaping with
  | true =>
    rw [chars_closure_escaping] at h
    exact absurd (List.cons.inj h).1 (by decide)
  | false =>
    rw [chars_closure] at h
    have hinner := (List.cons.inj h).2
    rw [List.append_eq, List.append_assoc] at hinner
    obtain ⟨-, hrest⟩ := commaText_inj (solid_map_chars hts) (solid_map_chars hinputs) hinner
    cases n <;> cases isAsync <;> cases isThrowing <;> cases hrest

/-- With question marks behind it, another type than a closure has no text of one. -/
theorem chars_ne_closure {t : TypeShape} {inputs : List TypeShape} (ht : t.Parted)
    (hclosure : t.isClosure = false) (hinputs : PartedAll inputs)
    (isAsync isThrowing isEscaping : Bool) (s : TypeShape) (n : Nat) :
    t.chars ++ List.replicate n '?' ≠
      (closure inputs isAsync isThrowing isEscaping s).chars := by
  have hother {u : TypeShape} (hu : u.Parted) (hoptional : u.isOptional = false)
      (hopening : u.opening? ≠ some .parenthesis) : u.chars ++ List.replicate n '?' ≠
        (closure inputs isAsync isThrowing isEscaping s).chars := by
    rw [opening?_eq hu hoptional] at hopening
    obtain ⟨c, hc, ds, hchars⟩ := exists_closure_cons inputs isAsync isThrowing isEscaping s
    obtain ⟨d, r, hcons⟩ := List.exists_cons_of_ne_nil (chars_ne_nil hu)
    have hne : u.chars ≠ c :: r :=
      ne_cons_of_opening hc fun heq => hopening (congrArg some heq)
    intro heq
    rw [hchars, hcons] at heq
    rw [hcons] at hne
    exact hne (by rw [(List.cons.inj heq).1])
  cases t with
  | empty => exact ht.elim
  | closure => cases hclosure
  | optional u =>
    have hmore : ['?'] ++ List.replicate n '?' = List.replicate (n + 1) '?' := rfl
    rw [chars_optional ht.1, List.append_assoc, hmore]
    exact chars_ne_closure ht.2 ht.1 hinputs isAsync isThrowing isEscaping s (n + 1)
  | tuple ts => exact chars_tuple_ne_closure ht hinputs isAsync isThrowing isEscaping s n
  | simple | array | set | dictionary | result | void => exact hother ht rfl nofun

/-- Only optionals end with a question mark that stands behind another type than a closure. -/
theorem chars_optional_ne {s t : TypeShape} (hs : (optional s).Parted) (ht : t.Parted)
    (hoptional : t.isOptional = false) : (optional s).chars ≠ t.chars := by
  cases hclosure : t.isClosure with
  | true =>
    cases t with
    | closure inputs isAsync isThrowing isEscaping output =>
      rw [← List.append_nil (optional s).chars]
      exact chars_ne_closure hs rfl ht.1 isAsync isThrowing isEscaping output 0
    | _ => cases hclosure
  | false =>
    intro h
    refine getLast?_chars ht hoptional hclosure ?_
    rw [← h, chars_optional hs.1, List.getLast?_concat]

/-- Shapes with one text start with the same, unless they are optionals. -/
theorem opening_eq {s t : TypeShape} (hs : s.Parted) (ht : t.Parted) (h : s.chars = t.chars)
    (hoptional : s.isOptional = false) : s.opening? = t.opening? := by
  cases ht' : t.isOptional with
  | true =>
    cases t with
    | optional u => exact absurd h.symm (chars_optional_ne ht hs hoptional)
    | _ => cases ht'
  | false =>
    rw [opening?_eq hs hoptional, opening?_eq ht ht', h]

theorem effects_inj {isAsync isThrowing isAsync' isThrowing' : Bool} {cs ds : List Char}
    (h : Grammar.effectText isAsync isThrowing ++ Grammar.arrowText cs =
      Grammar.effectText isAsync' isThrowing' ++ Grammar.arrowText ds) :
    isAsync = isAsync' ∧ isThrowing = isThrowing' ∧ cs = ds := by
  cases isAsync <;> cases isAsync' <;> cases isThrowing <;> cases isThrowing' <;> cases h <;>
    exact ⟨rfl, rfl, rfl⟩

/-- Only what escapes starts with an attribute. -/
theorem escaping_inj {inputs inputs' : List TypeShape}
    {isAsync isThrowing isEscaping isAsync' isThrowing' isEscaping' : Bool} {s t : TypeShape}
    (h : (closure inputs isAsync isThrowing isEscaping s).chars =
      (closure inputs' isAsync' isThrowing' isEscaping' t).chars) :
    isEscaping = isEscaping' ∧ (closure inputs isAsync isThrowing false s).chars =
      (closure inputs' isAsync' isThrowing' false t).chars := by
  cases isEscaping <;> cases isEscaping'
  · exact ⟨rfl, h⟩
  · rw [chars_closure_escaping, chars_closure] at h
    exact absurd (List.cons.inj h).1 (by decide)
  · rw [chars_closure_escaping, chars_closure inputs'] at h
    exact absurd (List.cons.inj h).1 (by decide)
  · rw [chars_closure_escaping, chars_closure_escaping inputs'] at h
    exact ⟨rfl, List.append_cancel_left h⟩

/-! ### the parts of a text -/

section

variable {a b k k' v v' : TypeShape} {ts us : List TypeShape}

theorem array_inj (h : (array a).chars = (array b).chars) : a.chars = b.chars := by
  rw [chars_array, chars_array] at h
  exact List.append_cancel_right (List.cons.inj h).2

theorem set_inj (h : (set a).chars = (set b).chars) : a.chars = b.chars := by
  rw [chars_set, chars_set] at h
  exact List.append_cancel_right (List.cons.inj (List.append_cancel_left h)).2

/-- The key of a dictionary ends at its colon, as its own brackets close before. -/
theorem dictionary_inj (hk : k.Parted) (hk' : k'.Parted)
    (h : (dictionary k v).chars = (dictionary k' v').chars) :
    k.chars = k'.chars ∧ v.chars = v'.chars := by
  rw [chars_dictionary, chars_dictionary] at h
  obtain ⟨hkey, hrest⟩ := (closed_chars hk).append_inj (closed_chars hk')
    (closes_cons (by decide) _) (closes_cons (by decide) _) (List.cons.inj h).2
  exact ⟨hkey, List.append_cancel_right (List.cons.inj (List.cons.inj hrest).2).2⟩

/-- Behind the first type in brackets stands the bracket that closes them, or a colon. -/
theorem chars_array_ne_dictionary (ha : a.Parted) (hk : k.Parted) :
    (array a).chars ≠ (dictionary k v).chars := by
  intro h
  rw [chars_array, chars_dictionary] at h
  obtain ⟨-, hrest⟩ := (closed_chars ha).append_inj (closed_chars hk)
    (closes_cons (by decide) []) (closes_cons (by decide) _) (List.cons.inj h).2
  exact absurd (List.cons.inj hrest).1 (by decide)

theorem result_inj (hk : k.Parted) (hk' : k'.Parted)
    (h : (result k v).chars = (result k' v').chars) :
    k.chars = k'.chars ∧ v.chars = v'.chars := by
  rw [chars_result, chars_result] at h
  obtain ⟨hfirst, hrest⟩ := (closed_chars hk).append_inj (closed_chars hk')
    (closes_cons (by decide) _) (closes_cons (by decide) _)
    (List.cons.inj (List.append_cancel_left h)).2
  exact ⟨hfirst, List.append_cancel_right (List.cons.inj (List.cons.inj hrest).2).2⟩

theorem tuple_inj (hts : PartedAll ts) (hus : PartedAll us)
    (h : (tuple ts).chars = (tuple us).chars) : ts.map chars = us.map chars := by
  rw [chars_tuple, chars_tuple] at h
  exact (commaText_inj (solid_map_chars hts) (solid_map_chars hus) (List.cons.inj h).2).1

theorem closure_inj {isAsync isThrowing isEscaping isAsync' isThrowing' isEscaping' : Bool}
    (hts : PartedAll ts) (hus : PartedAll us)
    (h : (closure ts isAsync isThrowing isEscaping a).chars =
      (closure us isAsync' isThrowing' isEscaping' b).chars) :
    ts.map chars = us.map chars ∧ (isAsync = isAsync' ∧ isThrowing = isThrowing' ∧
      isEscaping = isEscaping') ∧ a.chars = b.chars := by
  obtain ⟨hescaping, hplain⟩ := escaping_inj h
  rw [chars_closure, chars_closure] at hplain
  obtain ⟨hinputs, hrest⟩ := commaText_inj (solid_map_chars hts) (solid_map_chars hus)
    (List.cons.inj hplain).2
  obtain ⟨hasync, hthrowing, houtput⟩ := effects_inj hrest
  exact ⟨hinputs, ⟨hasync, hthrowing, hescaping⟩, houtput⟩

end

mutual

/-- Parted shapes are told by their texts. -/
theorem eq_of_chars {s t : TypeShape} (hs : s.Parted) (ht : t.Parted) (h : s.chars = t.chars) :
    s = t := by
  -- what the text starts with leaves one or two kinds of shapes for the other one
  cases s with
  | empty => exact hs.elim
  | optional a =>
    cases ht' : t.isOptional with
    | false => exact absurd h (chars_optional_ne hs ht ht')
    | true =>
      cases t with
      | optional b =>
        rw [chars_optional hs.1, chars_optional ht.1] at h
        rw [eq_of_chars hs.2 ht.2 (List.append_cancel_right h)]
      | _ => cases ht'
  | simple x =>
    have hopening := opening_eq hs ht h rfl
    cases t with
    | simple y => exact congrArg simple (String.toList_inj.1 h)
    | _ => cases hopening
  | array a =>
    have hopening := opening_eq hs ht h rfl
    cases t with
    | array b => rw [eq_of_chars (s := a) (t := b) hs ht (array_inj h)]
    | dictionary k v => exact absurd h (chars_array_ne_dictionary (a := a) hs ht.1)
    | _ => cases hopening
  | set a =>
    have hopening := opening_eq hs ht h rfl
    cases t with
    | set b => rw [eq_of_chars (s := a) (t := b) hs ht (set_inj h)]
    | _ => cases hopening
  | dictionary k v =>
    have hopening := opening_eq hs ht h rfl
    cases t with
    | array b => exact absurd h.symm (chars_array_ne_dictionary (a := b) ht hs.1)
    | dictionary k' v' =>
      obtain ⟨hkey, hvalue⟩ := dictionary_inj hs.1 ht.1 h
      rw [eq_of_chars hs.1 ht.1 hkey, eq_of_chars hs.2 ht.2 hvalue]
    | _ => cases hopening
  | tuple ts =>
    have hopening := opening_eq hs ht h rfl
    cases t with
    | tuple us => rw [eq_of_map_chars hs ht (tuple_inj hs ht h)]
    | closure inputs isAsync isThrowing isEscaping output =>
      have hne := chars_tuple_ne_closure hs ht.1 isAsync isThrowing isEscaping output 0
      exact absurd h (by simpa using hne)
    | _ => cases hopening
  | closure inputs isAsync isThrowing isEscaping output =>
    have hopening := opening_eq hs ht h rfl
    cases t with
    | tuple us =>
      have hne := chars_tuple_ne_closure ht hs.1 isAsync isThrowing isEscaping output 0
      exact absurd h.symm (by simpa using hne)
    | closure inputs' isAsync' isThrowing' isEscaping' output' =>
      obtain ⟨hinputs, ⟨rfl, rfl, rfl⟩, houtput⟩ := closure_inj hs.1 ht.1 h
      rw [eq_of_map_chars hs.1 ht.1 hinputs, eq_of_chars hs.2 ht.2 houtput]
    | _ => cases hopening
  | result a b =>
    have hopening := opening_eq hs ht h rfl
    cases t with
    | result c d =>
      obtain ⟨hsuccess, hfailure⟩ := result_inj hs.1 ht.1 h
      rw [eq_of_chars hs.1 ht.1 hsuccess, eq_of_chars hs.2 ht.2 hfailure]
    | _ => cases hopening
  | void =>
    have hopening := opening_eq hs ht h rfl
    cases t with
    | void => rfl
    | _ => cases hopening

theorem eq_of_map_chars {ts us : List TypeShape} (hts : PartedAll ts) (hus : PartedAll us)
    (h : ts.map chars = us.map chars) : ts = us := by
  cases ts with
  | nil => exact (List.map_eq_nil_iff.1 h.symm).symm
  | cons t ts =>
    cases us with
    | nil => cases h
    | cons u us =>
      obtain ⟨hfirst, hothers⟩ := List.cons.inj h
      rw [eq_of_chars hts.1 hus.1 hfirst, eq_of_map_chars hts.2 hus.2 hothers]

end

/-! ### parting -/

theorem isClosure_ofReversed (cs : List Char) : (ofReversed cs).isClosure = false := by
  unfold ofReversed
  split <;> rfl

theorem isClosure_inParentheses (t : TypeShape) : t.inParentheses.isClosure = false := by
  cases t <;> rfl

theorem isClosure_parted (t : TypeShape) : t.parted.isClosure = t.isClosure := by
  cases t with
  | simple x => exact isClosure_ofReversed _
  | _ => rfl

theorem chars_ofReversed (cs : List Char) : (ofReversed cs).chars = cs.reverse := by
  fun_induction ofReversed cs with
  | case1 cs ih => rw [chars_optional (isClosure_ofReversed cs), ih, List.reverse_cons]
  | case2 cs _ => exact String.toList_ofList

/-- The parentheses around an optional closure are there already. -/
theorem chars_optional_inParentheses (t : TypeShape) :
    (optional t.inParentheses).chars = (optional t).chars := by
  cases t with
  | closure =>
    rw [inParentheses, chars_optional rfl, chars_tuple, chars_optional_closure]
    exact congrArg (fun cs => '(' :: (cs ++ [')']) ++ ['?']) (List.append_nil _)
  | _ => rfl

theorem chars_optional_congr {s t : TypeShape} (h : s.chars = t.chars)
    (hclosure : s.isClosure = t.isClosure) : (optional s).chars = (optional t).chars := by
  cases hs : s.isClosure with
  | false => rw [chars_optional hs, chars_optional (hclosure ▸ hs), h]
  | true =>
    have ht := hclosure ▸ hs
    cases s <;> cases hs
    cases t <;> cases ht
    rw [chars_optional_closure, chars_optional_closure, h]

mutual

/-- Parting a shape does not change its text. -/
theorem chars_parted (s : TypeShape) : s.parted.chars = s.chars := by
  cases s with
  | empty => rfl
  | simple x =>
    rw [parted, chars_ofReversed, List.reverse_reverse]
    rfl
  | optional t =>
    rw [parted, chars_optional_inParentheses]
    exact chars_optional_congr (chars_parted t) (isClosure_parted t)
  | array t => rw [parted, chars_array, chars_parted t, chars_array]
  | set t => rw [parted, chars_set, chars_parted t, chars_set]
  | dictionary k v =>
    rw [parted, chars_dictionary, chars_parted k, chars_parted v, chars_dictionary]
  | tuple ts => rw [parted, chars_tuple, map_chars_parted ts, chars_tuple]
  | closure inputs isAsync isThrowing isEscaping output =>
    cases isEscaping
    · rw [parted, chars_closure, map_chars_parted inputs, chars_parted output, chars_closure]
    · rw [parted, chars_closure_escaping, chars_closure, map_chars_parted inputs,
        chars_parted output, chars_closure_escaping, chars_closure]
  | result s f => rw [parted, chars_result, chars_parted s, chars_parted f, chars_result]
  | void => rfl

theorem map_chars_parted (ts : List TypeShape) : (partedAll ts).map chars = ts.map chars := by
  cases ts with
  | nil => rfl
  | cons t ts =>
    rw [partedAll, List.map_cons, chars_parted t, map_chars_parted ts, List.map_cons]

end

theorem parted_ofReversed {cs : List Char}
    (h : IsSimple (cs.dropWhile (· == '?')).reverse) : (ofReversed cs).Parted := by
  fun_induction ofReversed cs with
  | case1 cs ih => exact ⟨isClosure_ofReversed cs, ih h⟩
  | case2 cs hcs =>
    have hkeep : cs.dropWhile (· == '?') = cs := by
      cases cs with
      | nil => rfl
      | cons c cs =>
        refine List.dropWhile_cons_of_neg ?_
        simp only [beq_iff_eq]
        rintro rfl
        exact hcs cs rfl
    rw [hkeep] at h
    show IsSimple (String.ofList cs.reverse).toList
    rwa [String.toList_ofList]

theorem parted_inParentheses {t : TypeShape} (h : t.Parted) : t.inParentheses.Parted := by
  cases t with
  | closure => exact ⟨h, True.intro⟩
  | _ => exact h

mutual

/-- Legible shapes may be parted. -/
theorem Legible.parted {s : TypeShape} (h : s.Legible) : s.parted.Parted := by
  cases s with
  | empty => exact h
  | simple x => exact parted_ofReversed h
  | optional t =>
    exact ⟨isClosure_inParentheses _, parted_inParentheses (Legible.parted (s := t) h)⟩
  | array t => exact Legible.parted (s := t) h
  | set t => exact Legible.parted (s := t) h
  | dictionary k v => exact ⟨Legible.parted h.1, Legible.parted h.2⟩
  | tuple ts => exact LegibleAll.parted h
  | closure => exact ⟨LegibleAll.parted h.1, Legible.parted h.2⟩
  | result s f => exact ⟨Legible.parted h.1, Legible.parted h.2⟩
  | void => exact True.intro

theorem LegibleAll.parted {ts : List TypeShape} (h : LegibleAll ts) :
    PartedAll (partedAll ts) := by
  cases ts with
  | nil => exact True.intro
  | cons t ts => exact ⟨Legible.parted h.1, LegibleAll.parted h.2⟩

end

theorem chars_eq_iff {s t : TypeShape} (hs : s.Legible) (ht : t.Legible) :
    s.chars = t.chars ↔ s.parted = t.parted := by
  rw [← chars_parted s, ← chars_parted t]
  exact ⟨eq_of_chars hs.parted ht.parted, congrArg chars⟩

/-- Two shapes are shown alike if they are the same with the question marks at the ends of simple
types as optionals, and optional closures as closures in parentheses; and only then. -/
theorem text_eq_iff {s t : TypeShape} (hs : s.Legible) (ht : t.Legible) :
    s.text = t.text ↔ s.parted = t.parted := by
  rw [← String.toList_inj]
  exact chars_eq_iff hs ht

/-- An optional of a composition, and a composition of which the last type is optional. -/
theorem text_eq_iff_composition :
    (optional (simple "A & B")).Legible ∧ (simple "A & B?").Legible ∧
      (optional (simple "A & B")).parted = (simple "A & B?").parted := by
  have hsimple : IsSimple "A & B".toList := ⟨by decide, by decide, by decide, by decide⟩
  have hoptional : (optional (simple "A & B")).Legible := hsimple
  have hcomposed : (simple "A & B?").Legible := hsimple
  exact ⟨hoptional, hcomposed, (text_eq_iff hoptional hcomposed).1 rfl⟩

end TypeShape

/-- Both stand in sources without faults, are shown alike, and only one is an optional. -/
theorem not_text_injective :
    ¬ ∀ (x y : String) (s t : TypeShape), Annotates x s → Annotates y t → s.text = t.text →
      s = t := by
  have hannotates (x : String) (optional : Bool) (hclean : (parse (variableOf x)).faults = [])
      (hshape : ((annotation? ⟨(parse (variableOf x)).tree, 0⟩).any fun a =>
        a.range.stop == (variableOf x).utf8ByteSize &&
          (TypeShape.ofWrapper a.tree).text == "A & B?" &&
          (TypeShape.ofWrapper a.tree).isOptional == optional) = true) :
      ∃ s, Annotates x s ∧ s.text = "A & B?" ∧ s.isOptional = optional := by
    obtain ⟨a, ha, h⟩ := (Option.any_eq_true _ _).1 hshape
    simp only [Bool.and_eq_true, beq_iff_eq] at h
    obtain ⟨⟨hstop, htext⟩, hoptional⟩ := h
    exact ⟨_, ⟨hclean, a, ha, hstop, rfl⟩, htext, hoptional⟩
  intro h
  obtain ⟨s, hs, hstext, hsoptional⟩ :=
    hannotates "(A & B)?" true (by decide +kernel) (by decide +kernel)
  obtain ⟨t, ht, httext, htoptional⟩ :=
    hannotates "A & B?" false (by decide +kernel) (by decide +kernel)
  obtain rfl := h _ _ s t hs ht (hstext.trans httext.symm)
  exact Bool.false_ne_true (htoptional.symm.trans hsoptional)

end SwiftOutline

import Mathlib.Data.List.Basic
import Mathlib.Data.List.Induction
import SwiftOutline.Report

/-!
# SwiftOutline.Proofs.Filed

What a report has noted, whatever is added to it and in whatever order.

* `Report.Entry` — what is asked of a report: to add a file, what an error is reported as, or a
  diagnostic;
* `Report.enterAll` — one entry after the other, with the numbers that are given out;
* `Report.Notes` — what a report holds of the entries up to now: its two stores, the files and the
  numbers of their names, tell the same of every name;
* `Notes.enter` — a step: one more entry is noted as well;
* `numbered_of_empty` — what a report holds after any entries, with the numbers that they got.

A number stays that of its name, since names are only ever put behind those that are known. So a
place in a diagnostic is in the file that was added under its number.
-/

namespace SwiftOutline

/-! ## what comes up first -/

section
variable {α : Type} [DecidableEq α]

/-- One more of a list is new, or it is known. -/
theorem eraseDups_concat (as : List α) (a : α) :
    (as ++ [a]).eraseDups = if a ∈ as then as.eraseDups else as.eraseDups ++ [a] := by
  rw [List.eraseDups_append]
  split
  next h => simp [List.removeAll, h]
  next h => simp [List.removeAll, h, List.eraseDups_cons]

/-- What is known has the same place among more. -/
theorem idxOf_eraseDups_append {as : List α} (bs : List α) {a : α} (h : a ∈ as) :
    (as ++ bs).eraseDups.idxOf a = as.eraseDups.idxOf a := by
  rw [List.eraseDups_append]
  exact List.idxOf_append_of_mem (List.mem_eraseDups.2 h)

theorem idxOf?_eq_some_idxOf {as : List α} {a : α} (h : a ∈ as) :
    as.idxOf? a = some (as.idxOf a) := by
  obtain ⟨i, hi⟩ := Option.isSome_iff_exists.1 (List.isSome_idxOf?.2 h)
  rw [hi, List.idxOf_eq_getD_idxOf?, hi, Option.getD_some]

/-- What is put behind a list stands at its end, unless it is in the list. -/
theorem idxOf?_concat (as : List α) (a b : α) :
    (as ++ [b]).idxOf? a = (as.idxOf? a).or (if b = a then some as.length else none) := by
  rw [List.idxOf?, List.findIdx?_append]
  by_cases h : b = a
  · simp [h]
  · simp [h]

theorem idxOf_eraseDups_lt {as : List α} {a : α} (h : a ∈ as) :
    as.eraseDups.idxOf a < as.eraseDups.length :=
  List.idxOf_lt_length_of_mem (List.mem_eraseDups.2 h)

/-- The places are counted up: whatever is new has the next one. -/
theorem eraseDups_map_idxOf (as : List α) :
    (as.map as.eraseDups.idxOf).eraseDups = List.range as.eraseDups.length := by
  induction as using List.reverseRecOn with
  | nil => rfl
  | append_singleton as a ih =>
    have hold : as.map (as ++ [a]).eraseDups.idxOf = as.map as.eraseDups.idxOf :=
      List.map_congr_left fun b hb => idxOf_eraseDups_append [a] hb
    rw [List.map_append, hold, List.map_singleton, eraseDups_concat, ih]
    by_cases h : a ∈ as
    · have hnames : (as ++ [a]).eraseDups = as.eraseDups := by rw [eraseDups_concat, if_pos h]
      rw [hnames, if_pos (List.mem_map_of_mem h)]
    · have hnames : (as ++ [a]).eraseDups = as.eraseDups ++ [a] := by
        rw [eraseDups_concat, if_neg h]
      have hlast : (as.eraseDups ++ [a]).idxOf a = as.eraseDups.length := by
        simp [List.idxOf_append, h]
      have hnew : as.eraseDups.length ∉ as.map as.eraseDups.idxOf := by
        intro hmem
        obtain ⟨b, hb, hplace⟩ := List.mem_map.1 hmem
        exact absurd hplace (Nat.ne_of_lt (idxOf_eraseDups_lt hb))
      rw [hnames, hlast, if_neg hnew, List.length_append, List.length_singleton, List.range_succ]

end

namespace Report

/-- What is asked of a report. -/
inductive Entry where
  /-- A file is added. -/
  | file (name text : String)
  /-- An error is reported in the file of a number. -/
  | error (reported : Nat → Diagnostic) (id : Nat)
  /-- A diagnostic is added as it is. -/
  | diagnostic (d : Diagnostic)

namespace Entry

/-- The file that an entry adds. -/
def file? : Entry → Option SourceText
  | .file name text => some ⟨name, text⟩
  | _ => none

/-- The diagnostic that an entry adds. -/
def diagnostic? : Entry → Option Diagnostic
  | .file _ _ => none
  | .error reported id => some (reported id)
  | .diagnostic d => some d

end Entry

/-- The files that entries add or ask for again. -/
def filesOf (es : List Entry) : List SourceText := es.filterMap Entry.file?

/-- The names of these files, each where it comes up first. -/
def namesOf (es : List Entry) : List String := ((filesOf es).map (·.name)).eraseDups

/-- The diagnostics that entries add. -/
def diagnosticsOf (es : List Entry) : List Diagnostic := es.filterMap Entry.diagnostic?

/-- Put an entry into a report: the number that is given out, and the report with it. -/
def enter (r : Report) : Entry → Option Nat × Report
  | .file name text => let (id, s) := r.addFile name text; (some id, s)
  | .error reported id => (none, r.report reported id)
  | .diagnostic d => (none, r.add d)

/-- Put one entry after the other into a report. -/
def enterAll (r : Report) : List Entry → List Nat × Report
  | [] => ([], r)
  | e :: es =>
    let (id?, s) := r.enter e
    let (ids, t) := s.enterAll es
    (id?.toList ++ ids, t)

/-! ## names -/

theorem filesOf_append (es fs : List Entry) : filesOf (es ++ fs) = filesOf es ++ filesOf fs :=
  List.filterMap_append

theorem diagnosticsOf_append (es fs : List Entry) :
    diagnosticsOf (es ++ fs) = diagnosticsOf es ++ diagnosticsOf fs := List.filterMap_append

theorem mem_namesOf {es : List Entry} {name : String} :
    name ∈ namesOf es ↔ ∃ f ∈ filesOf es, f.name = name := by
  rw [namesOf, List.mem_eraseDups, List.mem_map]

/-- A name that is known has the same place among the names of more entries. -/
theorem idxOf_namesOf_append {es : List Entry} (fs : List Entry) {name : String}
    (h : name ∈ namesOf es) : (namesOf (es ++ fs)).idxOf name = (namesOf es).idxOf name := by
  rw [namesOf, filesOf_append, List.map_append]
  exact idxOf_eraseDups_append _ (List.mem_eraseDups.1 h)

/-- The names with one more file. -/
theorem namesOf_concat_file (es : List Entry) (name text : String) :
    namesOf (es ++ [.file name text]) =
      if name ∈ namesOf es then namesOf es else namesOf es ++ [name] := by
  have hfiles : filesOf [.file name text] = [⟨name, text⟩] := rfl
  simp only [namesOf, filesOf_append, List.map_append, hfiles, List.map_singleton,
    eraseDups_concat, List.mem_eraseDups]

/-! ## one entry -/

/-- What a report holds of entries: the files by their names, and of every name the place that its
file has among them. -/
structure Notes (es : List Entry) (r : Report) : Prop where
  names : r.files.map (·.name) = namesOf es
  texts : ∀ name, r.files.find? (·.name == name) = (filesOf es).find? (·.name == name)
  numbers : ∀ name, r.fileId? name = (namesOf es).idxOf? name
  diagnostics : r.diagnostics = diagnosticsOf es

namespace Notes
variable {es : List Entry} {r : Report}

theorem empty : Notes [] Report.empty := ⟨rfl, fun _ => rfl, fun _ => rfl, rfl⟩

theorem size (h : Notes es r) : r.files.length = (namesOf es).length := by
  rw [← h.names, List.length_map]

/-- A file whose name is known gets the number of that name, and nothing is added. -/
theorem addFile_of_mem (h : Notes es r) {name : String} (hname : name ∈ namesOf es)
    (text : String) : r.addFile name text = ((namesOf es).idxOf name, r) := by
  have hid : r.fileId? name = some ((namesOf es).idxOf name) := by
    rw [h.numbers, idxOf?_eq_some_idxOf hname]
  rw [addFile, hid]

/-- A file whose name is new gets the next number. -/
theorem addFile_of_notMem (h : Notes es r) {name : String} (hname : name ∉ namesOf es)
    (text : String) : r.addFile name text = ((namesOf es).length,
      ⟨r.files ++ [⟨name, text⟩], (name, (namesOf es).length) :: r.numbers, r.diagnostics⟩) := by
  have hid : r.fileId? name = none := by
    rw [h.numbers, List.idxOf?_eq_none_iff]
    exact hname
  rw [addFile, hid]
  simp only [SourceText.addTo, h.size]

/-- One more file is noted, and its number is the place of its name. -/
theorem addFile (h : Notes es r) (name text : String) :
    (r.addFile name text).1 = (namesOf (es ++ [.file name text])).idxOf name ∧
      Notes (es ++ [.file name text]) (r.addFile name text).2 := by
  have hfiles : filesOf (es ++ [.file name text]) = filesOf es ++ [⟨name, text⟩] :=
    filesOf_append es [.file name text]
  have hdiagnostics : diagnosticsOf (es ++ [.file name text]) = diagnosticsOf es := by
    rw [diagnosticsOf_append]
    exact List.append_nil _
  by_cases hname : name ∈ namesOf es
  · have hnames : namesOf (es ++ [.file name text]) = namesOf es := by
      rw [namesOf_concat_file, if_pos hname]
    rw [h.addFile_of_mem hname, hnames]
    refine ⟨rfl, ?_, fun other => ?_, ?_, ?_⟩
    · rw [hnames]; exact h.names
    · -- a file of the name comes before the one that is added
      rw [hfiles, List.find?_append, h.texts]
      by_cases hother : name = other
      · obtain ⟨f, hf, hname'⟩ := mem_namesOf.1 hname
        have hfound : ((filesOf es).find? (·.name == other)).isSome = true :=
          List.find?_isSome.2 ⟨f, hf, beq_iff_eq.2 (hname'.trans hother)⟩
        rw [Option.or_of_isSome hfound]
      · simp [hother]
    · rw [hnames]; exact h.numbers
    · rw [hdiagnostics]; exact h.diagnostics
  · have hnames : namesOf (es ++ [.file name text]) = namesOf es ++ [name] := by
      rw [namesOf_concat_file, if_neg hname]
    rw [h.addFile_of_notMem hname, hnames]
    refine ⟨?_, ?_, fun other => ?_, fun other => ?_, ?_⟩
    · simp [List.idxOf_append, hname]
    · rw [hnames, List.map_append, h.names]
      rfl
    · rw [hfiles, List.find?_append, List.find?_append, h.texts]
    · have hold : r.numbers.lookup other = (namesOf es).idxOf? other := h.numbers other
      rw [hnames, idxOf?_concat, fileId?, List.lookup_cons, hold]
      by_cases hother : name = other
      · subst hother
        rw [List.idxOf?_eq_none_iff.2 hname, Option.none_or, if_pos rfl, beq_self_eq_true]
      · rw [beq_false_of_ne (Ne.symm hother), if_neg hother, Option.or_none]
    · rw [hdiagnostics]; exact h.diagnostics

/-- One more diagnostic is noted. -/
theorem add (h : Notes es r) {e : Entry} {d : Diagnostic} (hfile : e.file? = none)
    (hd : e.diagnostic? = some d) : Notes (es ++ [e]) (r.add d) := by
  have hfiles : filesOf (es ++ [e]) = filesOf es := by
    rw [filesOf_append]
    simp [filesOf, hfile]
  have hnames : namesOf (es ++ [e]) = namesOf es := by rw [namesOf, hfiles, namesOf]
  refine ⟨?_, fun name => ?_, fun name => ?_, ?_⟩
  · rw [hnames]; exact h.names
  · rw [hfiles]; exact h.texts name
  · rw [hnames]; exact h.numbers name
  · rw [diagnosticsOf_append, ← h.diagnostics]
    simp [diagnosticsOf, hd, Report.add]

/-- One more entry is noted; a file gets the place of its name as its number. -/
theorem enter (h : Notes es r) (e : Entry) :
    (r.enter e).1 = e.file?.map (fun f => (namesOf (es ++ [e])).idxOf f.name) ∧
      Notes (es ++ [e]) (r.enter e).2 := by
  cases e with
  | file name text =>
    obtain ⟨hid, hnotes⟩ := h.addFile name text
    exact ⟨congrArg some hid, hnotes⟩
  | error reported id => exact ⟨rfl, h.add rfl rfl⟩
  | diagnostic d => exact ⟨rfl, h.add rfl rfl⟩

end Notes

/-! ## many entries -/

/-- Entries that are put in one after the other can be put in in two runs. -/
theorem enterAll_append (r : Report) (es fs : List Entry) :
    r.enterAll (es ++ fs) = ((r.enterAll es).1 ++ ((r.enterAll es).2.enterAll fs).1,
      ((r.enterAll es).2.enterAll fs).2) := by
  induction es generalizing r with
  | nil => rfl
  | cons e es ih => simp only [List.cons_append, enterAll, ih, List.append_assoc]

theorem filesOf_cons (e : Entry) (es : List Entry) :
    filesOf (e :: es) = e.file?.toList ++ filesOf es := by
  cases h : e.file? <;> simp [filesOf, h]

/-- Entries are noted behind those before, and each file that they are about gets the place of its
name among all names. -/
theorem Notes.enterAll {es : List Entry} {r : Report} (h : Notes es r) (fs : List Entry) :
    (r.enterAll fs).1 = (filesOf fs).map (fun f => (namesOf (es ++ fs)).idxOf f.name) ∧
      Notes (es ++ fs) (r.enterAll fs).2 := by
  induction fs generalizing es r with
  | nil =>
    rw [List.append_nil]
    exact ⟨rfl, h⟩
  | cons f fs ih =>
    obtain ⟨hid, hnotes⟩ := h.enter f
    obtain ⟨hids, hall⟩ := ih hnotes
    rw [List.append_assoc, List.singleton_append] at hids hall
    refine ⟨?_, hall⟩
    show (r.enter f).1.toList ++ ((r.enter f).2.enterAll fs).1 = _
    rw [hids, hid, filesOf_cons, List.map_append]
    congr 1
    cases hfile : f.file? with
    | none => rfl
    | some file =>
      -- what follows leaves the name where it is
      have hname : file.name ∈ namesOf (es ++ [f]) := by
        refine mem_namesOf.2 ⟨file, ?_, rfl⟩
        rw [filesOf_append, filesOf_cons, hfile]
        simp
      have hplace := idxOf_namesOf_append fs hname
      rw [List.append_assoc, List.singleton_append] at hplace
      simp [hplace]

/-- The file of the number of a name is the first one that was added under the name. -/
theorem Notes.file?_of_fileId? {es : List Entry} {r : Report} (h : Notes es r) {name : String}
    {id : Nat} (hid : r.fileId? name = some id) :
    r.file? id = (filesOf es).find? (·.name == name) := by
  rw [h.numbers, ← h.names] at hid
  obtain ⟨hlt, hname, hfirst⟩ := List.idxOf?_eq_some_iff.1 hid
  rw [List.length_map] at hlt
  rw [← h.texts, file?, List.getElem?_eq_getElem hlt]
  refine (List.find?_eq_some_iff_getElem.2 ⟨?_, id, hlt, rfl, fun j hj => ?_⟩).symm
  · simpa using hname
  · simpa using hfirst j hj

/-- Whatever is entered into a new report: the numbers given out are the places of the names among
the names in the order in which they come up first, counted up from 0; a name has the number that
it was given, or none; the file of that number is the first one that was added under the name, and
to add the name again changes nothing; the diagnostics are those entered, in order, each with the
number that was given for it; and something is wrong exactly if one of them is an error or a bug.
So it is at every point: what is entered afterwards only adds to the numbers given out. -/
theorem numbered_of_empty (es : List Entry) :
    let ids := (empty.enterAll es).1
    let r := (empty.enterAll es).2
    let names := namesOf es
    (ids = (filesOf es).map (names.idxOf ·.name) ∧ ids.eraseDups = List.range names.length) ∧
      (∀ name, r.fileId? name = names.idxOf? name) ∧
      (∀ name id, r.fileId? name = some id → r.file? id = (filesOf es).find? (·.name == name)) ∧
      (∀ name text id, r.fileId? name = some id → r.addFile name text = (id, r)) ∧
      (∀ name text, r.fileId? name = none → (r.addFile name text).1 = names.length) ∧
      r.diagnostics = diagnosticsOf es ∧
      (r.hasErrors = true ↔ ∃ d ∈ r.diagnostics, d.severity = .error ∨ d.severity = .bug) ∧
      ∀ more, empty.enterAll (es ++ more) = (ids ++ (r.enterAll more).1, (r.enterAll more).2) := by
  intro ids r names
  obtain ⟨hids, hnotes⟩ := Notes.empty.enterAll es
  rw [List.nil_append] at hids hnotes
  refine ⟨⟨hids, ?_⟩, hnotes.numbers, fun name id => hnotes.file?_of_fileId?,
    fun name text id hid => ?_, fun name text hid => ?_, hnotes.diagnostics, ?_,
    enterAll_append empty es⟩
  · have hcount := eraseDups_map_idxOf ((filesOf es).map (·.name))
    rw [List.map_map] at hcount
    exact (congrArg List.eraseDups hids).trans hcount
  · rw [addFile, hid]
  · rw [hnotes.numbers, List.idxOf?_eq_none_iff] at hid
    rw [hnotes.addFile_of_notMem hid]
  · have hfailure (d : Diagnostic) :
        d.severity.isFailure = true ↔ d.severity = .error ∨ d.severity = .bug := by
      cases d.severity <;> decide
    simp only [hasErrors, List.any_eq_true, hfailure]

end Report

end SwiftOutline

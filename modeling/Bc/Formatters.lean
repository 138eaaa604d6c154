import Bc.LogWorker
import Bc.Texts
import Mathlib.Data.List.DropRight

/-!
The formatter of log records. Its constructor cuts a format string into raw text
and placeholders with two indices into the string; the same cutting is given
below on the text that is left. A record's text is put together from the pieces
and loses its last newlines.
-/
namespace Bc.Formatters

open Texts
open LogWorker (Level Location Record)

inductive MetaType
  | datetime
  | level
  | topic
  | thread
  | location
  | message
  deriving DecidableEq

/-- What stands between the braces of a placeholder. -/
def MetaType.name : MetaType → Text
  | datetime => "datetime".toList
  | level => "level".toList
  | topic => "topic".toList
  | thread => "thread".toList
  | location => "location".toList
  | message => "message".toList

inductive Segment
  | raw (text : Text)
  | placeholder (field : MetaType)
  deriving DecidableEq

/-- The comparisons of a segment with the known names; others are dropped. -/
def metaOf (segment : Text) : Option MetaType :=
  if segment = MetaType.name .datetime then some .datetime
  else if segment = MetaType.name .level then some .level
  else if segment = MetaType.name .topic then some .topic
  else if segment = MetaType.name .thread then some .thread
  else if segment = MetaType.name .location then some .location
  else if segment = MetaType.name .message then some .message
  else none

/-- The `State` of the constructor's loop, `RAW` and `META`. -/
inductive Scan
  | raw
  | inside
  deriving DecidableEq

/-- The `string_view` from `s` to `i`; `none` where there is no such range. -/
def slice (format : Text) (s i : ℕ) : Option Text :=
  if s ≤ i ∧ i ≤ format.length then some ((format.take i).drop s) else none

/-- The loop of the constructor with what follows it. -/
def scan (format : Text) (state : Scan) (s i : ℕ) (segments : List Segment) :
    Option (List Segment) :=
  if h : i < format.length then
    if state = .raw ∧ format[i] = '%' ∧ i < format.length - 1 ∧ format[i + 1]? = some '{' then
      if i ≠ s then
        (slice format s i).bind fun text =>
          scan format .inside (i + 2) (i + 2) (segments ++ [.raw text])
      else scan format .inside (i + 2) (i + 2) segments
    else if state = .inside ∧ format[i] = '}' then
      (slice format s i).bind fun segment =>
        scan format .raw (i + 1) (i + 1)
          (segments ++ (metaOf segment).toList.map Segment.placeholder)
    else scan format state s (i + 1) segments
  else if state = .raw ∧ s ≠ format.length then
    (slice format s format.length).map fun text => segments ++ [.raw text]
  else some segments
termination_by format.length - i

/-- What the constructor makes `segments_`. -/
def segmentsOf (format : Text) : Option (List Segment) := scan format .raw 0 0 []

structure Formatter where
  formatString : Text
  segments : List Segment
  cut_eq : segmentsOf formatString = some segments

section Cutting

/-- No raw segment is made of an empty range. -/
def rawSegment (text : Text) : List Segment := if text = [] then [] else [.raw text]

/-- The constructor's loop on the text that is left. `text` has been passed since
the last cut. -/
def cut : Scan → Text → Text → List Segment
  | .raw, text, [] => rawSegment text
  | .raw, text, [c] => rawSegment (text ++ [c])
  | .raw, text, c :: d :: rest =>
    if c = '%' ∧ d = '{' then rawSegment text ++ cut .inside [] rest
    else cut .raw (text ++ [c]) (d :: rest)
  | .inside, _, [] => []
  | .inside, text, c :: rest =>
    if c = '}' then (metaOf text).toList.map Segment.placeholder ++ cut .raw [] rest
    else cut .inside (text ++ [c]) rest

theorem slice_middle (left text rest : Text) :
    slice (left ++ text ++ rest) left.length (left.length + text.length) = some text := by
  have hrange : left.length ≤ left.length + text.length ∧
      left.length + text.length ≤ (left ++ text ++ rest).length := by
    simp only [List.length_append]
    omega
  rw [slice, if_pos hrange, ← List.length_append, List.take_left, List.drop_left]

/-- One turn of the constructor's loop, at the character `c`. -/
theorem scan_cons (left text rest : Text) (c : Char) (state : Scan) (segments : List Segment) :
    scan (left ++ text ++ c :: rest) state left.length (left.length + text.length) segments =
      if state = .raw ∧ c = '%' ∧ rest.head? = some '{' then
        scan (left ++ text ++ c :: rest) .inside (left.length + text.length + 2)
          (left.length + text.length + 2) (segments ++ rawSegment text)
      else if state = .inside ∧ c = '}' then
        scan (left ++ text ++ c :: rest) .raw (left.length + text.length + 1)
          (left.length + text.length + 1)
          (segments ++ (metaOf text).toList.map Segment.placeholder)
      else
        scan (left ++ text ++ c :: rest) state left.length (left.length + text.length + 1)
          segments := by
  have hlt : left.length + text.length < (left ++ text ++ c :: rest).length := by
    simp only [List.length_append, List.length_cons]
    omega
  have hget : (left ++ text ++ c :: rest)[left.length + text.length] = c := by
    rw [List.getElem_append_right (by simp)]
    simp
  have hnext : left.length + text.length < (left ++ text ++ c :: rest).length - 1 ∧
      (left ++ text ++ c :: rest)[left.length + text.length + 1]? = some '{' ↔
        rest.head? = some '{' := by
    have hget' : (left ++ text ++ c :: rest)[left.length + text.length + 1]? = rest[0]? := by
      rw [List.getElem?_append_right (by simp only [List.length_append]; omega)]
      simp
    rw [hget', List.head?_eq_getElem?, and_iff_right_iff_imp]
    intro h
    obtain ⟨hpos, -⟩ := List.getElem?_eq_some_iff.mp h
    simp only [List.length_append, List.length_cons]
    omega
  rw [scan, dif_pos hlt, hget, slice_middle, Option.bind_some, Option.bind_some]
  simp only [hnext]
  by_cases htext : text = []
  · subst htext
    simp [rawSegment]
  · have hmoved : left.length + text.length ≠ left.length := by
      have hpos := List.length_pos_iff.mpr htext
      omega
    simp only [if_pos hmoved, rawSegment, if_neg htext]

theorem scan_pass (left text rest : Text) {c : Char} {state : Scan} (segments : List Segment)
    (hopen : ¬(state = .raw ∧ c = '%' ∧ rest.head? = some '{'))
    (hclose : ¬(state = .inside ∧ c = '}')) :
    scan (left ++ text ++ c :: rest) state left.length (left.length + text.length) segments =
      scan (left ++ (text ++ [c]) ++ rest) state left.length
        (left.length + (text ++ [c]).length) segments := by
  rw [scan_cons, if_neg hopen, if_neg hclose, List.length_append, List.length_singleton,
    ← Nat.add_assoc, List.append_assoc left, List.append_assoc left, List.append_assoc text]
  rfl

theorem scan_end (left text : Text) (state : Scan) (segments : List Segment) :
    scan (left ++ text) state left.length (left.length + text.length) segments =
      some (segments ++ if state = .raw then rawSegment text else []) := by
  have hend : ¬left.length + text.length < (left ++ text).length := by
    rw [List.length_append]
    exact Nat.lt_irrefl _
  have hslice : slice (left ++ text) left.length (left ++ text).length = some text := by
    rw [List.length_append]
    simpa only [List.append_nil] using slice_middle left text []
  rw [scan, dif_neg hend, hslice, Option.map_some]
  cases state with
  | raw =>
    by_cases htext : text = []
    · simp [htext, rawSegment]
    · have hmoved : left.length ≠ (left ++ text).length := by
        rw [List.length_append]
        have hpos := List.length_pos_iff.mpr htext
        omega
      rw [if_pos ⟨rfl, hmoved⟩, if_pos rfl, rawSegment, if_neg htext]
  | inside => simp

/-- The two ways to cut agree, and every range that the constructor makes a
`string_view` of is one. -/
theorem scan_eq (state : Scan) (left text rest : Text) (segments : List Segment) :
    scan (left ++ text ++ rest) state left.length (left.length + text.length) segments =
      some (segments ++ cut state text rest) := by
  fun_induction cut state text rest generalizing left segments with
  | case1 text =>
    rw [List.append_nil, scan_end, if_pos rfl]
  | case2 text c =>
    rw [scan_pass left text [] segments (by simp) (by simp), List.append_nil, scan_end,
      if_pos rfl]
  | case3 text c d rest hopen ih =>
    obtain ⟨rfl, rfl⟩ := hopen
    rw [scan_cons, if_pos ⟨rfl, rfl, rfl⟩, ← List.append_assoc, ← ih (left ++ text ++ ['%', '{'])]
    simp only [List.append_assoc, List.cons_append, List.nil_append, List.length_append,
      List.length_cons, List.length_nil, Nat.add_assoc]
  | case4 text c d rest hopen ih =>
    have hpass : ¬(Scan.raw = .raw ∧ c = '%' ∧ (d :: rest).head? = some '{') := by
      simpa using hopen
    rw [scan_pass left text (d :: rest) segments hpass (by simp), ih]
  | case5 text =>
    rw [List.append_nil, scan_end, if_neg (by simp)]
  | case6 text rest ih =>
    rw [scan_cons, if_neg (by simp), if_pos ⟨rfl, rfl⟩, ← List.append_assoc,
      ← ih (left ++ text ++ ['}'])]
    simp only [List.append_assoc, List.cons_append, List.nil_append, List.length_append,
      List.length_cons, List.length_nil, Nat.add_assoc]
  | case7 text c rest hclose ih =>
    rw [scan_pass left text rest segments (by simp) (by simpa using hclose), ih]

theorem segmentsOf_eq (format : Text) : segmentsOf format = some (cut .raw [] format) :=
  scan_eq .raw [] [] format []

end Cutting

def Formatter.ofFormat (format : Text) : Formatter where
  formatString := format
  segments := cut .raw [] format
  cut_eq := segmentsOf_eq format

theorem Formatter.segments_eq (f : Formatter) : f.segments = cut .raw [] f.formatString :=
  Option.some.inj (f.cut_eq.symm.trans (segmentsOf_eq f.formatString))

def Segment.repr : Segment → Text
  | .raw text => text
  | .placeholder field => '%' :: '{' :: field.name ++ ['}']

def Formatter.repr (f : Formatter) : Text := f.segments.flatMap Segment.repr

def levelString : Level → Text
  | .debug => "DEBUG".toList
  | .info => "INFO".toList
  | .warning => "WARNING".toList
  | .error => "ERROR".toList
  | .fatal => "FATAL".toList

def formatInt (n : ℤ) : Text :=
  if n < 0 then '-' :: format 10 n.natAbs else format 10 n.natAbs

section Records

variable (datetime : ℤ → Text)

/-- What is appended for a placeholder. `datetime` is the text that `fmt` makes of a
timestamp. -/
def fieldText (r : Record) : MetaType → Text
  | .datetime => datetime r.timestamp
  | .level => levelString r.lv
  | .topic => r.topic.toList
  | .thread => formatInt r.tid
  | .location => r.location.fileName.toList ++ ':' :: format 10 r.location.line
  | .message => r.message.toList

def Segment.text (r : Record) : Segment → Text
  | .raw text => text
  | .placeholder field => fieldText datetime r field

/-- The `log` of `format` before its last newlines are removed. -/
def Formatter.log (f : Formatter) (r : Record) : Text :=
  f.segments.flatMap (Segment.text datetime r)

/-- The loop at the end of `format`. `none` is a call of `back` on an empty
string. -/
def trim (log : Text) : Option Text :=
  if h : log = [] then none
  else if log.getLast h = '\n' then trim log.dropLast
  else some log
termination_by log.length
decreasing_by
  rw [List.length_dropLast]
  have hpos := List.length_pos_iff.mpr h
  omega

def Formatter.format (f : Formatter) (r : Record) : Option Text := trim (f.log datetime r)

def isNewline (c : Char) : Bool := c = '\n'

/-- The segment's text has something else than newlines. The conversions of a
timestamp, a level, a number and a location always have. -/
def Visible (r : Record) : Segment → Prop
  | .raw text => ∃ c ∈ text, c ≠ '\n'
  | .placeholder .topic => ∃ c ∈ r.topic.toList, c ≠ '\n'
  | .placeholder .message => ∃ c ∈ r.message.toList, c ≠ '\n'
  | .placeholder _ => True

variable {datetime : ℤ → Text} {f : Formatter} {r : Record}

theorem trim_concat (log : Text) (c : Char) :
    trim (log ++ [c]) = if c = '\n' then trim log else some (log ++ [c]) := by
  rw [trim, dif_neg (by simp), List.getLast_concat, List.dropLast_concat]

/-- The loop stops in front of the last newlines. -/
theorem trim_of_visible {log : Text} (h : ∃ c ∈ log, c ≠ '\n') :
    trim log = some (log.rdropWhile isNewline) := by
  induction log using List.reverseRecOn with
  | nil =>
    obtain ⟨c, hc, -⟩ := h
    cases hc
  | append_singleton log c ih =>
    rw [trim_concat, List.rdropWhile_concat]
    by_cases hc : c = '\n'
    · have hlog : ∃ d ∈ log, d ≠ '\n' := by simpa [hc] using h
      simp [hc, isNewline, ih hlog]
    · simp [hc, isNewline]

/-- With newlines only it runs off the front. -/
theorem trim_of_newlines {log : Text} (h : ∀ c ∈ log, c = '\n') : trim log = none := by
  induction log using List.reverseRecOn with
  | nil =>
    rw [trim]
    rfl
  | append_singleton log c ih =>
    rw [trim_concat, if_pos (h c (by simp))]
    exact ih fun d hd => h d (List.mem_append_left _ hd)

theorem formatInt_visible (n : ℤ) : ∃ c ∈ formatInt n, c ≠ '\n' := by
  obtain ⟨c, hc⟩ := List.exists_mem_of_ne_nil _ (format_ne_nil 10 n.natAbs)
  have hdigit := format_digits (by decide) (by decide) n.natAbs c hc
  refine ⟨c, ?_, ?_⟩
  · unfold formatInt
    split
    · exact List.mem_cons_of_mem _ hc
    · exact hc
  · rintro rfl
    exact absurd hdigit (by decide)

theorem levelString_visible (level : Level) : ∃ c ∈ levelString level, c ≠ '\n' := by
  cases level with
  | debug => exact ⟨'D', by decide, by decide⟩
  | info => exact ⟨'I', by decide, by decide⟩
  | warning => exact ⟨'W', by decide, by decide⟩
  | error => exact ⟨'E', by decide, by decide⟩
  | fatal => exact ⟨'F', by decide, by decide⟩

theorem visible_iff (hdatetime : ∀ timestamp, ∃ c ∈ datetime timestamp, c ≠ '\n')
    (segment : Segment) : (∃ c ∈ segment.text datetime r, c ≠ '\n') ↔ Visible r segment := by
  cases segment with
  | raw text => exact Iff.rfl
  | placeholder field =>
    cases field with
    | datetime => exact iff_of_true (hdatetime _) trivial
    | level => exact iff_of_true (levelString_visible _) trivial
    | topic => exact Iff.rfl
    | thread => exact iff_of_true (formatInt_visible _) trivial
    | location =>
      refine iff_of_true ⟨':', ?_, by decide⟩ trivial
      exact List.mem_append_right _ List.mem_cons_self
    | message => exact Iff.rfl

theorem log_visible_iff (hdatetime : ∀ timestamp, ∃ c ∈ datetime timestamp, c ≠ '\n') :
    (∃ c ∈ f.log datetime r, c ≠ '\n') ↔ ∃ segment ∈ f.segments, Visible r segment := by
  constructor
  · rintro ⟨c, hc, hvisible⟩
    obtain ⟨segment, hsegment, htext⟩ := List.mem_flatMap.mp hc
    exact ⟨segment, hsegment, (visible_iff hdatetime segment).mp ⟨c, htext, hvisible⟩⟩
  · rintro ⟨segment, hsegment, h⟩
    obtain ⟨c, htext, hvisible⟩ := (visible_iff hdatetime segment).mpr h
    exact ⟨c, List.mem_flatMap.mpr ⟨segment, hsegment, htext⟩, hvisible⟩

/-- The last newlines are removed, and nothing else, unless the text has nothing
else: then the loop runs off its front. -/
theorem trimmed_iff (hdatetime : ∀ timestamp, ∃ c ∈ datetime timestamp, c ≠ '\n')
    (f : Formatter) (r : Record) :
    f.format datetime r = some ((f.log datetime r).rdropWhile isNewline) ↔
      ∃ segment ∈ f.segments, Visible r segment := by
  rw [Formatter.format, ← log_visible_iff hdatetime]
  constructor
  · intro h
    by_contra hnone
    rw [trim_of_newlines (by simpa using hnone)] at h
    cases h
  · exact trim_of_visible

end Records

def epoch : Text := "1970-01-01 00:00:00.000".toList

def sampleRecord (message : String) : Record :=
  ⟨0, .warning, "", 1, ⟨"main.cpp", 1⟩, message⟩

theorem trimmed_iff_sample :
    (Formatter.ofFormat "[%{level}] %{message}".toList).format (fun _ => epoch)
        (sampleRecord "a\n\n") =
      some (((Formatter.ofFormat "[%{level}] %{message}".toList).log (fun _ => epoch)
        (sampleRecord "a\n\n")).rdropWhile isNewline) := by
  refine (trimmed_iff (fun _ => ⟨'1', by decide, by decide⟩) _ _).mpr ?_
  exact ⟨.placeholder .level, by decide, trivial⟩

/-- The format has a placeholder only, and the message is empty. -/
theorem empty_message_runs_off :
    (¬∀ f r, Formatter.format (fun _ => epoch) f r =
      some ((f.log (fun _ => epoch) r).rdropWhile isNewline)) ∧
      (Formatter.ofFormat "%{message}".toList).format (fun _ => epoch) (sampleRecord "") =
        none := by
  have hnone : (Formatter.ofFormat "%{message}".toList).format (fun _ => epoch)
      (sampleRecord "") = none := by
    have hlog : (Formatter.ofFormat "%{message}".toList).log (fun _ => epoch)
        (sampleRecord "") = [] := by decide
    rw [Formatter.format, hlog]
    exact trim_of_newlines nofun
  refine ⟨fun h => ?_, hnone⟩
  have hsome := h (Formatter.ofFormat "%{message}".toList) (sampleRecord "")
  rw [hnone] at hsome
  cases hsome

end Bc.Formatters

import Bc.Formatters
import Bc.LogCalls

/-!
Log output and what can be read from it. With the default format a record is one
line of bracketed fields with the message behind them; the lines of a logger's
output give back the fields of the records that were written, one by one.
-/
namespace Bc.LogLines

open Texts Formatters
open LogWorker (Level Location Record)

def defaultFormat : Text :=
  "[%{datetime}] [%{level}] [%{thread}] [%{location}] %{message}".toList

/-- The formatter of a logger that is constructed without a format. -/
def defaultFormatter : Formatter := Formatter.ofFormat defaultFormat

theorem defaultFormatter_segments :
    defaultFormatter.segments =
      [.raw ['['], .placeholder .datetime, .raw "] [".toList, .placeholder .level,
        .raw "] [".toList, .placeholder .thread, .raw "] [".toList, .placeholder .location,
        .raw "] ".toList, .placeholder .message] := by
  decide

/-- What can be read from a line: the fields of a record, but for its topic and the
newlines at the end of its message. -/
structure Fields where
  datetime : Text
  level : Level
  thread : ℤ
  fileName : Text
  line : ℕ
  message : Text
  deriving DecidableEq

def fieldsOf (datetime : ℤ → Text) (r : Record) : Fields :=
  ⟨datetime r.timestamp, r.lv, r.tid, r.location.fileName.toList, r.location.line,
    r.message.toList.rdropWhile isNewline⟩

/-- A field in brackets with what is behind it and a blank. -/
def readBracket : Text → Option (Text × Text)
  | '[' :: rest =>
    match rest.dropWhile fun c => c ≠ ']' with
    | ']' :: ' ' :: after => some (rest.takeWhile fun c => c ≠ ']', after)
    | _ => none
  | _ => none

def readLevel (text : Text) : Option Level :=
  [Level.debug, .info, .warning, .error, .fatal].find? fun level => levelString level = text

def readInt : Text → ℤ
  | '-' :: digits => -(value 10 digits : ℤ)
  | digits => value 10 digits

/-- The file name is in front of the last colon. -/
def readLocation (text : Text) : Text × ℕ :=
  (((text.reverse.dropWhile fun c => c ≠ ':').drop 1).reverse,
    value 10 (text.reverse.takeWhile fun c => c ≠ ':').reverse)

def readLine (line : Text) : Option Fields :=
  (readBracket line).bind fun (datetime, afterDatetime) =>
    (readBracket afterDatetime).bind fun (level, afterLevel) =>
      (readBracket afterLevel).bind fun (thread, afterThread) =>
        (readBracket afterThread).bind fun (location, message) =>
          (readLevel level).map fun level =>
            ⟨datetime, level, readInt thread, (readLocation location).1,
              (readLocation location).2, message⟩

/-- The lines of an output, of which each is ended by a newline. -/
def readLog (output : Text) : List (Option Fields) :=
  (output.splitOn '\n').dropLast.map readLine

section Lines

theorem readBracket_eq {field : Text} (h : ']' ∉ field) (after : Text) :
    readBracket ('[' :: field ++ ']' :: ' ' :: after) = some (field, after) := by
  have hfield : ∀ c ∈ field, decide (c ≠ ']') = true := by
    intro c hc
    exact decide_eq_true (ne_of_mem_of_not_mem hc h)
  simp only [readBracket, List.cons_append]
  rw [List.dropWhile_append_of_pos hfield, List.takeWhile_append_of_pos hfield]
  simp

theorem readLevel_levelString (level : Level) : readLevel (levelString level) = some level := by
  cases level <;> decide

theorem dash_not_digit {c : Char} (h : digitValue c < 10) : c ≠ '-' := by
  rintro rfl
  exact absurd h (by decide)

theorem readInt_formatInt (n : ℤ) : readInt (formatInt n) = n := by
  have hvalue : value 10 (format 10 n.natAbs) = n.natAbs := value_format (by decide) (by decide) _
  unfold formatInt
  split
  · rename_i hneg
    simp only [readInt, hvalue]
    omega
  · rename_i hpos
    obtain ⟨c, rest, htext⟩ := List.exists_cons_of_ne_nil (format_ne_nil 10 n.natAbs)
    have hdigit : digitValue c < 10 :=
      format_digits (by decide) (by decide) n.natAbs c (by simp [htext])
    have hread : readInt (format 10 n.natAbs) = value 10 (format 10 n.natAbs) := by
      rw [htext, readInt]
      intro digits heq
      exact dash_not_digit hdigit (List.cons.inj heq).1
    rw [hread, hvalue]
    omega

theorem readLocation_eq (fileName : Text) (line : ℕ) :
    readLocation (fileName ++ ':' :: format 10 line) = (fileName, line) := by
  have hdigits : ∀ c ∈ (format 10 line).reverse, decide (c ≠ ':') = true := by
    intro c hc
    exact decide_eq_true
      (ne_of_mem_of_not_mem (List.mem_reverse.mp hc) (not_mem_format (by decide) line))
  have hreverse : (fileName ++ ':' :: format 10 line).reverse =
      (format 10 line).reverse ++ ':' :: fileName.reverse := by simp
  have hvalue : value 10 (format 10 line) = line := value_format (by decide) (by decide) line
  rw [readLocation, hreverse, List.dropWhile_append_of_pos hdigits,
    List.takeWhile_append_of_pos hdigits]
  simp [hvalue]

variable {datetime : ℤ → Text} {r : Record}

def bracketed (field : Text) : Text := '[' :: field ++ [']', ' ']

theorem log_default (datetime : ℤ → Text) (r : Record) :
    defaultFormatter.log datetime r =
      bracketed (datetime r.timestamp) ++ bracketed (levelString r.lv) ++
        bracketed (formatInt r.tid) ++
        bracketed (r.location.fileName.toList ++ ':' :: format 10 r.location.line) ++
        r.message.toList := by
  rw [Formatter.log, defaultFormatter_segments]
  simp [Segment.text, fieldText, bracketed]

/-- Newlines are removed behind a character that stays. -/
theorem rdropWhile_behind (front back : Text) {c : Char} (hc : c ≠ '\n') :
    (front ++ [c] ++ back).rdropWhile isNewline = front ++ [c] ++ back.rdropWhile isNewline := by
  induction back using List.reverseRecOn with
  | nil =>
    rw [List.append_nil, List.rdropWhile_concat_neg _ _ _ (by simpa [isNewline] using hc)]
    simp
  | append_singleton back d ih =>
    rw [← List.append_assoc, List.rdropWhile_concat, List.rdropWhile_concat, ih]
    split
    · rfl
    · rw [List.append_assoc]

def defaultLine (datetime : ℤ → Text) (r : Record) : Text :=
  bracketed (datetime r.timestamp) ++ bracketed (levelString r.lv) ++
    bracketed (formatInt r.tid) ++
    bracketed (r.location.fileName.toList ++ ':' :: format 10 r.location.line) ++
    r.message.toList.rdropWhile isNewline

/-- The default format is never empty. -/
theorem format_default (datetime : ℤ → Text) (r : Record) :
    defaultFormatter.format datetime r = some (defaultLine datetime r) := by
  have hvisible : ∃ c ∈ defaultFormatter.log datetime r, c ≠ '\n' := by
    refine ⟨'[', ?_, by decide⟩
    rw [log_default]
    simp [bracketed]
  rw [Formatter.format, trim_of_visible hvisible, log_default]
  have hblank := rdropWhile_behind
    (bracketed (datetime r.timestamp) ++ bracketed (levelString r.lv) ++
      bracketed (formatInt r.tid) ++
      ('[' :: (r.location.fileName.toList ++ ':' :: format 10 r.location.line) ++ [']']))
    r.message.toList (c := ' ') (by decide)
  simpa [bracketed, defaultLine] using hblank

/-- The texts that stand in a line do not look like its brackets or its end. -/
structure Clean (datetime : ℤ → Text) (r : Record) : Prop where
  datetime_bracket : ']' ∉ datetime r.timestamp
  datetime_newline : '\n' ∉ datetime r.timestamp
  file_bracket : ']' ∉ r.location.fileName.toList
  file_newline : '\n' ∉ r.location.fileName.toList
  message_newline : '\n' ∉ r.message.toList.rdropWhile isNewline

theorem not_mem_formatInt {c : Char} (hc : ¬digitValue c < 10) (hdash : c ≠ '-') (n : ℤ) :
    c ∉ formatInt n := by
  unfold formatInt
  split
  · rw [List.mem_cons, not_or]
    exact ⟨hdash, not_mem_format hc _⟩
  · exact not_mem_format hc _

theorem not_mem_levelString (level : Level) :
    ']' ∉ levelString level ∧ '\n' ∉ levelString level := by
  cases level <;> decide

theorem readLine_default (h : Clean datetime r) :
    readLine (defaultLine datetime r) = some (fieldsOf datetime r) := by
  have hlocation : ']' ∉ r.location.fileName.toList ++ ':' :: format 10 r.location.line := by
    rw [List.mem_append, List.mem_cons]
    rintro (hfile | hcolon | hline)
    · exact h.file_bracket hfile
    · exact absurd hcolon (by decide)
    · exact not_mem_format (by decide) _ hline
  have hline : defaultLine datetime r =
      '[' :: datetime r.timestamp ++ ']' :: ' ' :: ('[' :: levelString r.lv ++ ']' :: ' ' ::
        ('[' :: formatInt r.tid ++ ']' :: ' ' ::
          ('[' :: (r.location.fileName.toList ++ ':' :: format 10 r.location.line) ++
            ']' :: ' ' :: r.message.toList.rdropWhile isNewline))) := by
    simp [defaultLine, bracketed]
  rw [hline, readLine, readBracket_eq h.datetime_bracket]
  simp only [Option.bind_some]
  rw [readBracket_eq (not_mem_levelString r.lv).1]
  simp only [Option.bind_some]
  rw [readBracket_eq (not_mem_formatInt (by decide) (by decide) r.tid)]
  simp only [Option.bind_some]
  rw [readBracket_eq hlocation]
  simp only [Option.bind_some]
  rw [readLevel_levelString, readLocation_eq, readInt_formatInt]
  rfl

theorem newline_not_mem_default (h : Clean datetime r) : '\n' ∉ defaultLine datetime r := by
  have hlevel := (not_mem_levelString r.lv).2
  have hthread := not_mem_formatInt (c := '\n') (by decide) (by decide) r.tid
  have hnumber := not_mem_format (c := '\n') (by decide) r.location.line
  simp [defaultLine, bracketed, h.datetime_newline, h.file_newline, h.message_newline, hlevel,
    hthread, hnumber]

/-- Lines that are each ended by a newline. -/
theorem splitOn_lines {lines : List Text} (h : ∀ line ∈ lines, '\n' ∉ line) :
    (lines.flatMap fun line => line ++ ['\n']).splitOn '\n' = lines ++ [[]] := by
  induction lines with
  | nil => rfl
  | cons line rest ih =>
    have hrest := ih fun other hother => h other (List.mem_cons_of_mem _ hother)
    rw [List.flatMap_cons, List.append_assoc, List.singleton_append,
      List.splitOn_append_cons_self, hrest,
      List.splitOn_eq_singleton (h line (List.mem_cons_self ..))]
    rfl

/-- The lines of records are read back one by one. -/
theorem readLog_lines {records : List Record} (h : ∀ r ∈ records, Clean datetime r) :
    readLog (records.flatMap fun r => defaultLine datetime r ++ ['\n']) =
      records.map fun r => some (fieldsOf datetime r) := by
  have hlines : ∀ line ∈ records.map (defaultLine datetime), '\n' ∉ line := by
    intro line hline
    obtain ⟨r, hr, rfl⟩ := List.mem_map.mp hline
    exact newline_not_mem_default (h r hr)
  have hsplit := splitOn_lines hlines
  rw [List.flatMap_map] at hsplit
  rw [readLog, hsplit, List.dropLast_concat, List.map_map]
  exact List.map_congr_left fun r hr => readLine_default (h r hr)

end Lines

section Runs

open LogWorker hiding Text
open LogDelivery LogCalls

/-- The call of `log` at a logger has a clean record. -/
def LogsClean (datetime : ℤ → Text) (l : ℕ) : Act → Prop
  | .log k r => k = l → Clean datetime r
  | _ => True

variable {datetime : ℤ → Text} {l : ℕ} {c : Config} {s : State}

/-- The topic does not stand in a line. -/
theorem clean_of_called {acts : List Act} (hclean : ∀ a ∈ acts, LogsClean datetime l a)
    {r : Record} (hr : r ∈ called c l acts) : Clean datetime r := by
  obtain ⟨e, he, rfl⟩ := List.mem_map.mp hr
  obtain ⟨hmem, hlogger⟩ := List.mem_filter.mp he
  obtain ⟨a, ha, hcalled⟩ := List.mem_filterMap.mp hmem
  cases a with
  | log k x =>
    obtain rfl := Option.some.inj hcalled
    obtain ⟨h₁, h₂, h₃, h₄, h₅⟩ := hclean _ ha (of_decide_eq_true hlogger)
    exact ⟨h₁, h₂, h₃, h₄, h₅⟩
  | setLevel | checkStop | push | leave | flush | register | notify | testFlag | sleep | wake
  | stop | notifyStop | wakeWorker | work => cases hcalled

theorem getLast_lines (records : List Record) (c : Char)
    (h : c ∈ (records.flatMap fun r => defaultLine datetime r ++ ['\n']).getLast?) :
    c = '\n' := by
  rcases List.eq_nil_or_concat records with rfl | ⟨front, r, rfl⟩
  · cases h
  · rw [List.concat_eq_append, List.flatMap_append, List.flatMap_singleton, ← List.append_assoc,
      List.getLast?_concat] at h
    exact (Option.some.inj h).symm

/-- A logger with the default format whose records keep the brackets and the ends of
its lines to themselves: in every run its output ends with a line's end and can be read
back, one line for each record that was written, in their order; and what was written
are the first of the records that were queued, and all of them at the end. -/
theorem output_read_back {acts : List Act}
    (hformat : ∀ r, defaultFormatter.format datetime r = some (c.format l r))
    (hclean : ∀ a ∈ acts, LogsClean datetime l a)
    (h : Runs.exec (step c) init acts = some s) :
    (∀ last ∈ (s.loggers l).output.getLast?, last = '\n') ∧
      readLog (s.loggers l).output =
        (s.loggers l).written.map (fun r => some (fieldsOf datetime r)) ∧
      (s.loggers l).written <+: (s.loggers l).entered ∧
      (s.worker = .ended → (s.loggers l).written = (s.loggers l).entered) := by
  have hdelivering := run_delivering h
  obtain ⟨hwritten, hwhole⟩ := hdelivering.written l
  have hline : c.line l = fun r => defaultLine datetime r ++ ['\n'] := by
    funext r
    have htext := (hformat r).symm.trans (format_default datetime r)
    rw [LogWorker.Config.line, Option.some.inj htext]
  have houtput := hdelivering.1.output l
  rw [hline] at houtput
  rw [houtput]
  refine ⟨getLast_lines _, readLog_lines ?_, hwritten, hwhole⟩
  intro r hr
  exact clean_of_called hclean ((entered_subperm_called h l).subset (hwritten.subset hr))

end Runs

section Sample

open LogWorker hiding Text
open LogDelivery

def sampleDatetime : ℤ → Text := fun timestamp => formatInt timestamp

def sampleRecord : Record :=
  ⟨1700000000, .error, "", -7, ⟨"main.cpp", 17⟩, "a [b] c: d\n\n"⟩

def sampleLater : Record := ⟨1700000001, .fatal, "", 8, ⟨"a:b.hpp", 3⟩, ""⟩

def sampleConfig : Config := ⟨fun _ => "", fun _ r => defaultLine sampleDatetime r⟩

/-- A call of `log`, from its start to its return. -/
def sampleCall (r : Record) : List Act := [.log 0 r, .checkStop 0, .push 0, .leave 0 none]

/-- One record goes out with the first drain and the other with the last. -/
def sampleRun : List Act :=
  List.flatten
    [sampleCall sampleRecord, List.replicate 13 .work, sampleCall sampleLater,
      [.stop, .notifyStop none], List.replicate 10 .work]

theorem sampleRecord_clean : Clean sampleDatetime sampleRecord := by
  constructor <;> decide +kernel

theorem sampleLater_clean : Clean sampleDatetime sampleLater := by
  constructor <;> decide +kernel

theorem output_read_back_sample : ∃ s, Runs.exec (step sampleConfig) init sampleRun = some s ∧
    s.worker = .ended ∧ readLog (s.loggers 0).output =
      [some ⟨"1700000000".toList, .error, -7, "main.cpp".toList, 17, "a [b] c: d".toList⟩,
        some ⟨"1700000001".toList, .fatal, 8, "a:b.hpp".toList, 3, []⟩] := by
  have hclean : ∀ a ∈ sampleRun, LogsClean sampleDatetime 0 a := by
    intro a ha
    have hact : a = .log 0 sampleRecord ∨ a = .log 0 sampleLater ∨
        LogsClean sampleDatetime 0 a := by
      revert a
      simp [sampleRun, sampleCall, LogsClean]
    rcases hact with rfl | rfl | hother
    · exact fun _ => sampleRecord_clean
    · exact fun _ => sampleLater_clean
    · exact hother
  have hrun : ((Runs.exec (step sampleConfig) init sampleRun).map fun s =>
      (s.worker, (s.loggers 0).written)) = some (.ended, [sampleRecord, sampleLater]) := by
    decide +kernel
  obtain ⟨s, hs, heq⟩ := Option.map_eq_some_iff.mp hrun
  obtain ⟨hended, hwritten⟩ := Prod.mk.inj heq
  obtain ⟨-, hread, -, -⟩ :=
    output_read_back (l := 0) (fun r => format_default sampleDatetime r) hclean hs
  refine ⟨s, hs, hended, ?_⟩
  rw [hread, hwritten]
  decide +kernel

end Sample

end Bc.LogLines

import Bc.Formatters
import Mathlib.Data.List.Chain

/-!
Format strings and what a formatter makes of them. A string is taken as the
characters and placeholders that it is meant to consist of, and the segments of a
formatter as the same.
-/
namespace Bc.FormatStrings

open Texts Formatters
open LogWorker (Level Location Record)

/-- A character of raw text, or a placeholder. -/
inductive Piece
  | char (c : Char)
  | placeholder (field : MetaType)
  deriving DecidableEq

def Piece.print : Piece → Text
  | .char c => [c]
  | .placeholder field => '%' :: '{' :: field.name ++ ['}']

/-- The format string of pieces. -/
def printed (pieces : List Piece) : Text := pieces.flatMap Piece.print

/-- The placeholders replaced by the fields of a record, in their places. -/
def Piece.replaced (datetime : ℤ → Text) (r : Record) : Piece → Text
  | .char c => [c]
  | .placeholder field => fieldText datetime r field

def replaced (datetime : ℤ → Text) (r : Record) (pieces : List Piece) : Text :=
  pieces.flatMap (Piece.replaced datetime r)

/-- Two pieces of raw text do not open a placeholder. -/
def Separate : Piece → Piece → Prop
  | .char c, .char d => ¬(c = '%' ∧ d = '{')
  | _, _ => True

instance : DecidableRel Separate
  | .char _, .char _ => inferInstanceAs (Decidable ¬_)
  | .char _, .placeholder _ => inferInstanceAs (Decidable True)
  | .placeholder _, _ => inferInstanceAs (Decidable True)

def piecesOfSegment : Segment → List Piece
  | .raw text => text.map Piece.char
  | .placeholder field => [.placeholder field]

def piecesOf (segments : List Segment) : List Piece := segments.flatMap piecesOfSegment

section Pieces

variable {datetime : ℤ → Text} {r : Record}

theorem flatMap_char (text : Text) {f : Piece → Text} (hf : ∀ c, f (.char c) = [c]) :
    (text.map Piece.char).flatMap f = text := by
  rw [List.flatMap_map]
  simp [hf]

/-- What a segment is printed as is what its pieces are printed as. -/
theorem flatMap_segments {f : Segment → Text} {g : Piece → Text}
    (hraw : ∀ text, f (.raw text) = text) (hchar : ∀ c, g (.char c) = [c])
    (hfield : ∀ field, f (.placeholder field) = g (.placeholder field))
    (segments : List Segment) : segments.flatMap f = (piecesOf segments).flatMap g := by
  rw [piecesOf, List.flatMap_assoc]
  refine congrArg segments.flatMap (funext fun segment => ?_)
  cases segment with
  | raw text => rw [hraw, piecesOfSegment, flatMap_char text hchar]
  | placeholder field => rw [hfield, piecesOfSegment, List.flatMap_singleton]

theorem repr_eq (f : Formatter) : f.repr = printed (piecesOf f.segments) :=
  flatMap_segments (fun _ => rfl) (fun _ => rfl) (fun _ => rfl) f.segments

theorem log_eq (f : Formatter) : f.log datetime r = replaced datetime r (piecesOf f.segments) :=
  flatMap_segments (fun _ => rfl) (fun _ => rfl) (fun _ => rfl) f.segments

theorem piecesOf_append (left right : List Segment) :
    piecesOf (left ++ right) = piecesOf left ++ piecesOf right :=
  List.flatMap_append

theorem piecesOf_rawSegment (text : Text) : piecesOf (rawSegment text) = text.map Piece.char := by
  unfold rawSegment
  split_ifs with h
  · rw [h]
    rfl
  · exact List.flatMap_singleton _ _

end Pieces

section Cuts

variable {field : MetaType} {pieces : List Piece} {text rest : Text} {c : Char}

theorem metaOf_name (field : MetaType) : metaOf field.name = some field := by
  cases field <;> decide

theorem brace_not_mem_name (field : MetaType) : '}' ∉ field.name := by
  cases field <;> decide

/-- A character of raw text that does not open a placeholder is passed. -/
theorem cut_raw_cons (h : ¬(c = '%' ∧ rest.head? = some '{')) :
    cut .raw text (c :: rest) = cut .raw (text ++ [c]) rest := by
  cases rest with
  | nil => rw [cut, cut]
  | cons d rest =>
    rw [cut, if_neg]
    simpa using h

theorem cut_raw_open :
    cut .raw text ('%' :: '{' :: rest) = rawSegment text ++ cut .inside [] rest := by
  rw [cut, if_pos ⟨rfl, rfl⟩]

/-- What is between the braces is looked up when they close. -/
theorem cut_inside (name : Text) (hname : '}' ∉ name) :
    cut .inside text (name ++ '}' :: rest) =
      (metaOf (text ++ name)).toList.map Segment.placeholder ++ cut .raw [] rest := by
  induction name generalizing text with
  | nil => rw [List.nil_append, List.append_nil, cut, if_pos rfl]
  | cons c name ih =>
    rw [List.mem_cons, not_or] at hname
    rw [List.cons_append, cut, if_neg (Ne.symm hname.1), ih hname.2, List.append_assoc,
      List.singleton_append]

theorem printed_cons (p : Piece) (pieces : List Piece) :
    printed (p :: pieces) = p.print ++ printed pieces :=
  List.flatMap_cons

theorem cut_raw_placeholder :
    cut .raw text (printed (.placeholder field :: pieces)) =
      rawSegment text ++ .placeholder field :: cut .raw [] (printed pieces) := by
  have hprinted : printed (.placeholder field :: pieces) =
      '%' :: '{' :: (field.name ++ '}' :: printed pieces) := by
    rw [printed_cons, Piece.print]
    simp
  rw [hprinted, cut_raw_open, cut_inside field.name (brace_not_mem_name field), List.nil_append,
    metaOf_name]
  rfl

/-- Only a character can be printed with a brace in front. -/
theorem head_printed (h : (printed pieces).head? = some '{') :
    ∃ rest, pieces = .char '{' :: rest := by
  cases pieces with
  | nil => cases h
  | cons p rest =>
    cases p with
    | char d =>
      obtain rfl : d = '{' := Option.some.inj h
      exact ⟨rest, rfl⟩
    | placeholder field => exact absurd (Option.some.inj h) (by decide)

/-- The constructor finds the pieces that a format string is printed from. -/
theorem piecesOf_cut (hpieces : pieces.IsChain Separate) (text : Text) :
    piecesOf (cut .raw text (printed pieces)) = text.map Piece.char ++ pieces := by
  induction pieces generalizing text with
  | nil =>
    have hcut : cut .raw text (printed []) = rawSegment text := by
      rw [printed, List.flatMap_nil, cut]
    rw [hcut, piecesOf_rawSegment, List.append_nil]
  | cons p rest ih =>
    have hrest : rest.IsChain Separate := hpieces.tail
    cases p with
    | char c =>
      have hopen : ¬(c = '%' ∧ (printed rest).head? = some '{') := by
        rintro ⟨rfl, hhead⟩
        obtain ⟨later, rfl⟩ := head_printed hhead
        exact (List.isChain_cons_cons.mp hpieces).1 ⟨rfl, rfl⟩
      have hprinted : printed (.char c :: rest) = c :: printed rest := printed_cons _ _
      rw [hprinted, cut_raw_cons hopen, ih hrest, List.map_append, List.append_assoc]
      rfl
    | placeholder field =>
      rw [cut_raw_placeholder, piecesOf_append, piecesOf_rawSegment]
      have hlater := ih hrest []
      rw [List.map_nil, List.nil_append] at hlater
      exact congrArg (fun later => text.map Piece.char ++ .placeholder field :: later) hlater

theorem raw_mem_rawSegment {left right : Text} (h : .raw left ∈ rawSegment right) :
    left ≠ [] := by
  unfold rawSegment at h
  split_ifs at h with hright
  · cases h
  · rwa [Segment.raw.inj (List.mem_singleton.mp h)]

/-- Raw segments are never empty. -/
theorem raw_ne_nil {state : Scan} {raw : Text} (h : .raw raw ∈ cut state text rest) :
    raw ≠ [] := by
  fun_induction cut state text rest with
  | case1 text => exact raw_mem_rawSegment h
  | case2 text c => exact raw_mem_rawSegment h
  | case3 text c d rest hopen ih =>
    rcases List.mem_append.mp h with hraw | hlater
    · exact raw_mem_rawSegment hraw
    · exact ih hlater
  | case4 text c d rest hopen ih => exact ih h
  | case5 text => cases h
  | case6 text rest ih =>
    rcases List.mem_append.mp h with hfield | hlater
    · obtain ⟨field, -, heq⟩ := List.mem_map.mp hfield
      cases heq
    · exact ih hlater
  | case7 text c rest hclose ih => exact ih h

end Cuts

/-- A format string whose placeholders all have known names is cut into its raw
text and its placeholders, none of the raw text empty, so that it is printed as it
was and its records have the fields in the places of the placeholders. -/
theorem format_string_kept (pieces : List Piece) (hpieces : pieces.IsChain Separate)
    (f : Formatter) (hf : f.formatString = printed pieces) :
    f.repr = f.formatString ∧ (∀ text, .raw text ∈ f.segments → text ≠ []) ∧
      ∀ datetime r, f.log datetime r = replaced datetime r pieces := by
  have hsame : piecesOf f.segments = pieces := by
    rw [f.segments_eq, hf]
    exact piecesOf_cut hpieces []
  refine ⟨?_, fun text htext => ?_, fun datetime r => ?_⟩
  · rw [repr_eq, hsame, hf]
  · rw [f.segments_eq] at htext
    exact raw_ne_nil htext
  · rw [log_eq, hsame]

/-- `100%%{level}{%{topic}%` -/
def samplePieces : List Piece :=
  "100%".toList.map .char ++ [.placeholder .level, .char '{', .placeholder .topic, .char '%']

def sampleFormat : Text := "100%%\x7blevel\x7d\x7b%\x7btopic\x7d%".toList

theorem format_string_kept_sample : (Formatter.ofFormat sampleFormat).repr = sampleFormat :=
  (format_string_kept samplePieces (by decide) (Formatter.ofFormat sampleFormat) (by decide)).1

end Bc.FormatStrings

import Bc.FormatStrings

/-!
Format strings with unknown and with unclosed placeholders, which the constructor
drops. What is left prints as a format string that is cut in the same way, unless
raw text on the two sides of a dropped placeholder opens another one.
-/
namespace Bc.ReprFormats

open Texts Formatters FormatStrings
open LogWorker (Level Location Record)

def kept (format : Text) : List Piece := piecesOf (cut .raw [] format)

def braced (name : Text) : Text := '%' :: '{' :: name ++ ['}']

def Unknown (name : Text) : Prop := '}' ∉ name ∧ metaOf name = none

/-- Somewhere outside the placeholders of a format string there is a `%`, then one
or more unknown placeholders, then a `{`. -/
inductive Rejoins : Text → Prop
  | here (names : List Text) (rest : Text) (hne : names ≠ [])
      (hunknown : ∀ name ∈ names, Unknown name) :
      Rejoins ('%' :: (names.flatMap braced ++ '{' :: rest))
  | raw (c : Char) (rest : Text) (hraw : ¬(c = '%' ∧ rest.head? = some '{'))
      (h : Rejoins rest) : Rejoins (c :: rest)
  | closed (name rest : Text) (hname : '}' ∉ name) (h : Rejoins rest) :
      Rejoins (braced name ++ rest)

section Kept

variable {c : Char} {name rest text : Text}

/-- A format string starts with a raw character, a closed placeholder, or one that
is never closed. -/
@[elab_as_elim]
theorem format_induction {motive : Text → Prop} (nil : motive [])
    (raw : ∀ c rest, ¬(c = '%' ∧ rest.head? = some '{') → motive rest → motive (c :: rest))
    (closed : ∀ name rest, '}' ∉ name → motive rest → motive (braced name ++ rest))
    (unclosed : ∀ name, '}' ∉ name → motive ('%' :: '{' :: name)) (format : Text) :
    motive format := by
  induction hlength : format.length using Nat.strong_induction_on generalizing format with
  | _ n ih =>
    subst hlength
    cases format with
    | nil => exact nil
    | cons c rest =>
      by_cases hopen : c = '%' ∧ rest.head? = some '{'
      · obtain ⟨rfl, hhead⟩ := hopen
        obtain ⟨text, rfl⟩ := List.head?_eq_some_iff.mp hhead
        by_cases hclose : '}' ∈ text
        · obtain ⟨name, later, rfl, hname⟩ := List.eq_append_cons_of_mem hclose
          have hlater := closed name later hname (ih later.length (by simp; omega) later rfl)
          simpa [braced] using hlater
        · exact unclosed text hclose
      · exact raw c rest hopen (ih rest.length (by simp) rest rfl)

theorem kept_nil : kept [] = [] := by
  rw [kept, cut]
  rfl

/-- What has been passed since the last cut is raw text. -/
theorem piecesOf_cut_raw (text rest : Text) :
    piecesOf (cut .raw text rest) = text.map Piece.char ++ kept rest := by
  induction rest generalizing text with
  | nil => rw [kept_nil, cut, piecesOf_rawSegment, List.append_nil]
  | cons c rest ih =>
    by_cases hopen : c = '%' ∧ rest.head? = some '{'
    · obtain ⟨rfl, hhead⟩ := hopen
      obtain ⟨later, rfl⟩ := List.head?_eq_some_iff.mp hhead
      rw [kept, cut_raw_open, cut_raw_open, piecesOf_append, piecesOf_append,
        piecesOf_rawSegment, piecesOf_rawSegment]
      rfl
    · rw [kept, cut_raw_cons hopen, cut_raw_cons hopen, ih, ih, List.map_append,
        List.append_assoc]
      rfl

theorem kept_raw (h : ¬(c = '%' ∧ rest.head? = some '{')) :
    kept (c :: rest) = .char c :: kept rest := by
  rw [kept, cut_raw_cons h, piecesOf_cut_raw]
  rfl

theorem cut_braced (text : Text) (hname : '}' ∉ name) :
    cut .raw text (braced name ++ rest) =
      rawSegment text ++ ((metaOf name).toList.map Segment.placeholder ++ cut .raw [] rest) := by
  have hbraced : braced name ++ rest = '%' :: '{' :: (name ++ '}' :: rest) := by
    simp [braced]
  rw [hbraced, cut_raw_open, cut_inside name hname, List.nil_append]

theorem kept_braced (hname : '}' ∉ name) :
    kept (braced name ++ rest) = (metaOf name).toList.map Piece.placeholder ++ kept rest := by
  rw [kept, cut_braced [] hname, piecesOf_append, piecesOf_append]
  cases metaOf name <;> rfl

theorem kept_unclosed (hname : '}' ∉ name) : kept ('%' :: '{' :: name) = [] := by
  have hinside : ∀ text, cut .inside text name = [] := by
    induction name with
    | nil => exact fun text => by rw [cut]
    | cons c rest ih =>
      rw [List.mem_cons, not_or] at hname
      exact fun text => by rw [cut, if_neg (Ne.symm hname.1), ih hname.2]
  rw [kept, cut_raw_open, hinside]
  rfl

theorem kept_unknown {names : List Text} (hunknown : ∀ name ∈ names, Unknown name) :
    kept (names.flatMap braced ++ rest) = kept rest := by
  induction names with
  | nil => rfl
  | cons name names ih =>
    obtain ⟨hname, hnone⟩ := hunknown name List.mem_cons_self
    rw [List.flatMap_cons, List.append_assoc, kept_braced hname, hnone,
      ih fun later hlater => hunknown later (List.mem_cons_of_mem _ hlater)]
    rfl

/-- A brace that is kept in front was behind dropped placeholders only. -/
theorem kept_head {format : Text} (h : (kept format).head? = some (.char '{')) :
    ∃ (names : List Text) (rest : Text), (∀ name ∈ names, Unknown name) ∧
      format = names.flatMap braced ++ '{' :: rest := by
  induction format using format_induction with
  | nil =>
    rw [kept_nil] at h
    cases h
  | raw c rest hraw =>
    rw [kept_raw hraw] at h
    obtain rfl : c = '{' := Piece.char.inj (Option.some.inj h)
    exact ⟨[], rest, by simp, rfl⟩
  | closed name rest hname ih =>
    rw [kept_braced hname] at h
    cases hmeta : metaOf name with
    | none =>
      rw [hmeta] at h
      obtain ⟨names, later, hunknown, rfl⟩ := ih h
      refine ⟨name :: names, later, ?_, by rw [List.flatMap_cons, List.append_assoc]⟩
      exact List.forall_mem_cons.mpr ⟨⟨hname, hmeta⟩, hunknown⟩
    | some field =>
      rw [hmeta] at h
      cases h
  | unclosed name hname =>
    rw [kept_unclosed hname] at h
    cases h

/-- What is kept of a format string opens another placeholder exactly if raw text
was brought together so that it does. -/
theorem isChain_kept_iff (format : Text) : (kept format).IsChain Separate ↔ ¬Rejoins format := by
  refine ⟨fun hchain hrejoins => ?_, fun h => ?_⟩
  · induction hrejoins with
    | here names rest hne hunknown =>
      have hraw : ¬('%' = '%' ∧ (names.flatMap braced ++ '{' :: rest).head? = some '{') := by
        obtain ⟨name, later, rfl⟩ := List.exists_cons_of_ne_nil hne
        simp [braced]
      rw [kept_raw hraw, kept_unknown hunknown, kept_raw (by simp)] at hchain
      exact (List.isChain_cons_cons.mp hchain).1 ⟨rfl, rfl⟩
    | raw c rest hraw hrest ih =>
      rw [kept_raw hraw] at hchain
      exact ih hchain.tail
    | closed name rest hname hrest ih =>
      rw [kept_braced hname] at hchain
      exact ih hchain.right_of_append
  · induction format using format_induction with
    | nil => exact kept_nil ▸ .nil
    | raw c rest hraw ih =>
      rw [kept_raw hraw, List.isChain_cons]
      refine ⟨?_, ih fun hrest => h (.raw c rest hraw hrest)⟩
      rintro (d | field) hd
      · rintro ⟨rfl, rfl⟩
        obtain ⟨names, later, hunknown, rfl⟩ := kept_head hd
        have hne : names ≠ [] := by
          rintro rfl
          exact hraw ⟨rfl, rfl⟩
        exact h (.here names later hne hunknown)
      · trivial
    | closed name rest hname ih =>
      have hrest := ih fun hrest => h (.closed name rest hname hrest)
      rw [kept_braced hname]
      cases metaOf name with
      | none => exact hrest
      | some field => exact List.isChain_cons.mpr ⟨fun _ _ => trivial, hrest⟩
    | unclosed name hname => exact kept_unclosed hname ▸ .nil

end Kept

section Braces

variable {pieces : List Piece}

def braces (pieces : List Piece) : ℕ := pieces.count (.char '{')

theorem braces_char (c : Char) (pieces : List Piece) :
    braces (.char c :: pieces) = braces pieces + if c = '{' then 1 else 0 := by
  rw [braces, List.count_cons]
  simp [braces]

theorem braces_placeholder (field : MetaType) (pieces : List Piece) :
    braces (.placeholder field :: pieces) = braces pieces :=
  List.count_cons_of_ne (by simp)

theorem braces_kept_braced {name rest : Text} (hname : '}' ∉ name) :
    braces (kept (braced name ++ rest)) = braces (kept rest) := by
  rw [kept_braced hname]
  cases metaOf name with
  | none => rfl
  | some field => exact braces_placeholder field _

/-- Inside a placeholder no braces come in that were not raw text. -/
theorem braces_inside_le
    (hkept : ∀ later, later <:+ pieces → braces (kept (printed later)) ≤ braces later)
    (text : Text) (htext : '}' ∉ text) :
    braces (kept ('%' :: '{' :: (text ++ printed pieces))) ≤ braces pieces := by
  induction pieces generalizing text with
  | nil =>
    have hname : '}' ∉ text ++ printed [] := by simpa [printed] using htext
    rw [kept_unclosed hname]
  | cons p rest ih =>
    have hrest := ih fun later hlater => hkept later (hlater.trans (List.suffix_cons p rest))
    have hclosed : ∀ name, '}' ∉ name →
        braces (kept ('%' :: '{' :: (name ++ '}' :: printed rest))) ≤ braces rest := by
      intro name hname
      have hbraced : '%' :: '{' :: (name ++ '}' :: printed rest) = braced name ++ printed rest := by
        simp [braced]
      rw [hbraced, braces_kept_braced hname]
      exact hkept rest (List.suffix_cons p rest)
    cases p with
    | char c =>
      have hprinted : printed (.char c :: rest) = c :: printed rest := printed_cons _ _
      rw [hprinted, braces_char]
      by_cases hc : c = '}'
      · subst hc
        exact (hclosed text htext).trans (Nat.le_add_right _ _)
      · have hlater := hrest (text ++ [c]) (by simp [htext, Ne.symm hc])
        rw [List.append_assoc] at hlater
        exact hlater.trans (Nat.le_add_right _ _)
    | placeholder field =>
      have hname : '}' ∉ text ++ '%' :: '{' :: field.name := by
        simp [htext, brace_not_mem_name]
      have hlater := hclosed _ hname
      rw [printed_cons, braces_placeholder, Piece.print]
      simpa using hlater

/-- The brace of a placeholder that raw text opens is lost. -/
theorem braces_opened_lt
    (hkept : ∀ later, later <:+ pieces → braces (kept (printed later)) ≤ braces later) :
    braces (kept (printed (.char '%' :: .char '{' :: pieces))) <
      braces (.char '%' :: .char '{' :: pieces) := by
  calc braces (kept (printed (.char '%' :: .char '{' :: pieces)))
    _ = braces (kept ('%' :: '{' :: ([] ++ printed pieces))) := rfl
    _ ≤ braces pieces := braces_inside_le hkept [] (by simp)
    _ < braces (.char '%' :: .char '{' :: pieces) := by
      rw [braces_char, braces_char, if_pos rfl]
      omega

/-- Where pieces are not read back as they are, raw text is lost in a placeholder
and a brace with it. -/
theorem isChain_or_braces_lt (pieces : List Piece) :
    pieces.IsChain Separate ∨ braces (kept (printed pieces)) < braces pieces := by
  induction hlength : pieces.length using Nat.strong_induction_on generalizing pieces with
  | _ n ih =>
    subst hlength
    cases pieces with
    | nil => exact .inl .nil
    | cons p rest =>
      have hrest := ih rest.length (by simp) rest rfl
      cases p with
      | char c =>
        have hprinted : printed (.char c :: rest) = c :: printed rest := printed_cons _ _
        by_cases hopen : c = '%' ∧ (printed rest).head? = some '{'
        · obtain ⟨rfl, hhead⟩ := hopen
          obtain ⟨later, rfl⟩ := head_printed hhead
          have hkept : ∀ last, last <:+ later → braces (kept (printed last)) ≤ braces last := by
            intro last hlast
            have hshort : last.length < (.char '%' :: .char '{' :: later : List Piece).length := by
              have hle := hlast.length_le
              simp only [List.length_cons]
              omega
            rcases ih _ hshort last rfl with hchain | hlt
            · exact (congrArg braces (piecesOf_cut hchain [])).le
            · exact hlt.le
          exact .inr (braces_opened_lt hkept)
        · rcases hrest with hchain | hlt
          · refine .inl (List.isChain_cons.mpr ⟨?_, hchain⟩)
            rintro (d | field) hd
            · rintro ⟨rfl, rfl⟩
              obtain ⟨later, rfl⟩ := List.head?_eq_some_iff.mp hd
              exact hopen ⟨rfl, rfl⟩
            · trivial
          · right
            rw [hprinted, kept_raw hopen, braces_char, braces_char]
            omega
      | placeholder field =>
        rcases hrest with hchain | hlt
        · exact .inl (List.isChain_cons.mpr ⟨fun _ _ => trivial, hchain⟩)
        · right
          have hprinted : printed (.placeholder field :: rest) =
              braced field.name ++ printed rest := printed_cons _ _
          rw [hprinted, braces_kept_braced (brace_not_mem_name field), braces_placeholder]
          exact hlt

end Braces

section Records

variable {datetime : ℤ → Text} {f g : Formatter} {r : Record}

theorem piecesOf_segments (f : Formatter) : piecesOf f.segments = kept f.formatString := by
  rw [f.segments_eq, kept]

/-- A record none of whose fields has a brace if its timestamp has none. -/
def plainRecord (timestamp : ℤ) : Record := ⟨timestamp, .debug, "", 0, ⟨"", 0⟩, ""⟩

theorem brace_not_mem_field {timestamp : ℤ} (h : '{' ∉ datetime timestamp) (field : MetaType) :
    '{' ∉ fieldText datetime (plainRecord timestamp) field := by
  cases field with
  | datetime => exact h
  | level => exact (by decide : '{' ∉ levelString .debug)
  | topic => exact (by decide : '{' ∉ "".toList)
  | thread => exact (by decide : '{' ∉ formatInt 0)
  | location => exact (by decide : '{' ∉ "".toList ++ ':' :: Texts.format 10 0)
  | message => exact (by decide : '{' ∉ "".toList)

/-- In the text of such a record the braces are those of the raw text. -/
theorem count_replaced (h : ∀ field, '{' ∉ fieldText datetime r field) (pieces : List Piece) :
    (replaced datetime r pieces).count '{' = braces pieces := by
  induction pieces with
  | nil => rfl
  | cons p rest ih =>
    have hcons : replaced datetime r (p :: rest) =
        p.replaced datetime r ++ replaced datetime r rest := List.flatMap_cons
    rw [hcons, List.count_append, ih, Nat.add_comm]
    cases p with
    | char c =>
      rw [braces_char, Piece.replaced, List.count_singleton]
      simp
    | placeholder field =>
      rw [braces_placeholder, Piece.replaced, List.count_eq_zero.mpr (h field), Nat.add_zero]

/-- No brace is removed with the last newlines. -/
theorem count_rdropWhile (log : Text) :
    (log.rdropWhile isNewline).count '{' = log.count '{' := by
  have hnewlines : '{' ∉ log.rtakeWhile isNewline := fun hmem =>
    absurd (List.mem_rtakeWhile_imp hmem) (by decide)
  conv_rhs => rw [← List.rdropWhile_append_rtakeWhile (l := log) (p := isNewline)]
  rw [List.count_append, List.count_eq_zero.mpr hnewlines, Nat.add_zero]

theorem format_eq_of_kept (h : kept g.formatString = kept f.formatString) (r : Record) :
    g.format datetime r = f.format datetime r := by
  rw [Formatter.format, Formatter.format, log_eq, log_eq, piecesOf_segments, piecesOf_segments, h]

/-- Two formatters that agree on records have the same raw braces. -/
theorem braces_eq_of_format {timestamp : ℤ} (htimestamp : '{' ∉ datetime timestamp)
    (hpos : 0 < braces (kept f.formatString))
    (h : g.format datetime (plainRecord timestamp) = f.format datetime (plainRecord timestamp)) :
    braces (kept g.formatString) = braces (kept f.formatString) := by
  have hcount : ∀ k : Formatter, (k.log datetime (plainRecord timestamp)).count '{' =
      braces (kept k.formatString) := fun k => by
    rw [log_eq, piecesOf_segments, count_replaced (brace_not_mem_field htimestamp)]
  have hvisible : ∃ c ∈ f.log datetime (plainRecord timestamp), c ≠ '\n' := by
    rw [← hcount, List.count_pos_iff] at hpos
    exact ⟨'{', hpos, by decide⟩
  have hvisible' : ∃ c ∈ g.log datetime (plainRecord timestamp), c ≠ '\n' := by
    by_contra hnone
    rw [Formatter.format, Formatter.format, trim_of_visible hvisible,
      trim_of_newlines (by simpa using hnone)] at h
    cases h
  rw [Formatter.format, Formatter.format, trim_of_visible hvisible,
    trim_of_visible hvisible'] at h
  have htexts := congrArg (List.count '{') (Option.some.inj h)
  rwa [count_rdropWhile, count_rdropWhile, hcount, hcount] at htexts

/-- A formatter made of what a formatter prints agrees with it on every record
unless the dropped placeholders let raw text open another one. -/
theorem repr_denotes_iff (hdatetime : ∃ timestamp, '{' ∉ datetime timestamp) (f g : Formatter)
    (hg : g.formatString = f.repr) :
    (∀ r, g.format datetime r = f.format datetime r) ↔ ¬Rejoins f.formatString := by
  rw [← isChain_kept_iff]
  have hkept : kept g.formatString = kept (printed (kept f.formatString)) := by
    rw [hg, repr_eq, piecesOf_segments]
  constructor
  · intro h
    by_contra hchain
    have hlt := (isChain_or_braces_lt (kept f.formatString)).resolve_left hchain
    obtain ⟨timestamp, htimestamp⟩ := hdatetime
    have heq := braces_eq_of_format htimestamp (Nat.zero_lt_of_lt hlt) (h _)
    rw [hkept] at heq
    exact hlt.ne heq
  · intro hchain
    refine format_eq_of_kept ?_
    rw [hkept]
    exact piecesOf_cut hchain []

end Records

def droppedFormat : Text := "a%\x7bx\x7d%\x7blevel\x7d%\x7by".toList

theorem repr_denotes_iff_sample :
    (Formatter.ofFormat droppedFormat).repr = "a%{level}".toList ∧
      ((∀ r, (Formatter.ofFormat "a%{level}".toList).format (fun _ => epoch) r =
        (Formatter.ofFormat droppedFormat).format (fun _ => epoch) r) ↔
          ¬Rejoins droppedFormat) :=
  ⟨by decide, repr_denotes_iff ⟨0, by decide⟩ _ _ (by decide)⟩

/-- The unknown placeholder is dropped between a `%` and a brace, and what is printed
has a placeholder for the message. -/
theorem dropped_placeholder_joins :
    (¬∀ f g : Formatter, g.formatString = f.repr →
      ∀ r, g.format (fun _ => epoch) r = f.format (fun _ => epoch) r) ∧
      (Formatter.ofFormat "%%{x}{message}".toList).repr = "%{message}".toList := by
  have hrepr : (Formatter.ofFormat "%%{x}{message}".toList).repr = "%{message}".toList := by
    decide
  refine ⟨fun h => ?_, hrepr⟩
  have hsame := h _ (Formatter.ofFormat "%{message}".toList) hrepr.symm (sampleRecord "a")
  have hlog : (Formatter.ofFormat "%{message}".toList).log (fun _ => epoch) (sampleRecord "a") =
      "a".toList := by decide
  have hlog' : (Formatter.ofFormat "%%{x}{message}".toList).log (fun _ => epoch)
      (sampleRecord "a") = "%{message}".toList := by decide
  rw [Formatter.format, Formatter.format, hlog, hlog', trim_of_visible ⟨'a', by decide⟩,
    trim_of_visible ⟨'%', by decide⟩] at hsame
  exact absurd hsame (by decide)

end Bc.ReprFormats

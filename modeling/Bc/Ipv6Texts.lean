import Bc.AddressParsing
import Mathlib.Data.List.Infix

/-!
Which texts the parser takes for IPv6 addresses. An address is eight groups,
or a double colon with at most seven groups around it. The parser keeps to
this where it meets an empty piece, and does not count the groups where it
meets none or stops at the eighth.
-/
namespace Bc.Ipv6Texts

open Texts AddressParsing

/-- A text of an address, with its groups in front of the double colon and
those behind it. -/
inductive Denotes : Text → List Text → List Text → Prop
  | full (gs : List Text) (hgs : ∀ g ∈ gs, IsGroup g) (hlen : gs.length = 8) :
      Denotes (join ':' gs) gs []
  | gap (hi lo : List Text) (hhi : ∀ g ∈ hi, IsGroup g) (hlo : ∀ g ∈ lo, IsGroup g)
      (hlen : hi.length + lo.length ≤ 7) :
      Denotes (join ':' hi ++ [':', ':'] ++ join ':' lo) hi lo

def WellFormed (s : Text) : Prop := ∃ hi lo, Denotes s hi lo

def Accepted (host : ByteOrder) (s : Text) : Prop := ∃ words, parseIpv6 host s = .ok words

/-- Groups that are too few and not completed by a double colon, with a single
colon at one end or none, or too many with anything behind the eighth. -/
inductive Miscounted : Text → Prop
  | short (gs : List Text) (hgs : ∀ g ∈ gs, IsGroup g) (hlen : gs.length ≤ 7) :
      Miscounted (join ':' gs)
  | leading (gs : List Text) (hgs : ∀ g ∈ gs, IsGroup g) (hne : gs ≠ []) (hlen : gs.length ≤ 7) :
      Miscounted (':' :: join ':' gs)
  | trailing (gs : List Text) (hgs : ∀ g ∈ gs, IsGroup g) (hne : gs ≠ []) (hlen : gs.length ≤ 7) :
      Miscounted (join ':' gs ++ [':'])
  | long (gs : List Text) (rest : Text) (hgs : ∀ g ∈ gs, IsGroup g) (hlen : gs.length = 8)
      (hrest : ∀ c ∈ rest, isIpv6Char c = true) : Miscounted (join ':' gs ++ ':' :: rest)

section Characters

variable {s t : Text} {c : Char} {gs : List Text}

theorem isIpv6Char_iff : isIpv6Char c = true ↔ IsHexDigit c ∨ c = ':' := by
  simp only [isIpv6Char, IsHexDigit, Bool.or_eq_true, Bool.and_eq_true, decide_eq_true_eq,
    beq_iff_eq, or_assoc]

theorem not_hexDigit_colon : ¬IsHexDigit ':' := by
  unfold IsHexDigit
  decide

theorem colon_not_mem {g : Text} (hg : IsGroup g) : ':' ∉ g :=
  fun h => not_hexDigit_colon (hg.digits ':' h)

theorem chars_join (hgs : ∀ g ∈ gs, IsGroup g) : ∀ c ∈ join ':' gs, isIpv6Char c = true := by
  intro c hc
  rw [isIpv6Char_iff]
  rcases mem_join hc with hsep | ⟨g, hg, hcg⟩
  · exact .inr hsep
  · exact .inl ((hgs g hg).digits c hcg)

/-- What the two branches at the start can do. -/
inductive Trimmed : Text → Text → Prop
  | front (t : Text) : Trimmed (':' :: ':' :: t) (':' :: t)
  | back (t : Text) : Trimmed (t ++ [':', ':']) (t ++ [':'])
  | same (s : Text) : Trimmed s s

theorem append_two (t : Text) : t ++ [':', ':'] = t ++ [':'] ++ [':'] := by
  simp

theorem take_back (t : Text) :
    (t ++ [':', ':']).take ((t ++ [':', ':']).length - 1) = t ++ [':'] := by
  rw [← List.dropLast_eq_take, append_two, List.dropLast_concat]

theorem trim_cases (s : Text) : Trimmed s (trim s) := by
  unfold trim
  split
  · rename_i hfront
    obtain ⟨t, rfl⟩ := List.isPrefixOf_iff_prefix.mp hfront
    exact .front t
  · split
    · rename_i hback
      obtain ⟨t, rfl⟩ := List.isSuffixOf_iff_suffix.mp hback
      rw [take_back]
      exact .back t
    · exact .same s

theorem trim_front (t : Text) : trim (':' :: ':' :: t) = ':' :: t := rfl

theorem trim_back (hfront : ¬[':', ':'] <+: t ++ [':', ':']) :
    trim (t ++ [':', ':']) = t ++ [':'] := by
  have hback : [':', ':'].isSuffixOf (t ++ [':', ':']) = true :=
    List.isSuffixOf_iff_suffix.mpr (List.suffix_append _ _)
  rw [← List.isPrefixOf_iff_prefix] at hfront
  rw [trim, if_neg hfront, if_pos hback, take_back]

theorem trim_same (hfront : ¬[':', ':'] <+: s) (hback : ¬[':', ':'] <:+ s) : trim s = s := by
  rw [← List.isPrefixOf_iff_prefix] at hfront
  rw [← List.isSuffixOf_iff_suffix] at hback
  rw [trim, if_neg hfront, if_neg hback]

theorem mem_of_mem_trim (h : c ∈ trim s) : c ∈ s := by
  have hcases := trim_cases s
  generalize trim s = t at h hcases
  cases hcases with
  | front t => exact List.mem_cons_of_mem _ h
  | back t =>
    rcases List.mem_append.mp h with hinit | hlast
    · exact List.mem_append_left _ hinit
    · exact List.mem_append_right _ (List.mem_cons_of_mem _ hlast)
  | same => exact h

theorem join_head (hgs : ∀ g ∈ gs, IsGroup g) (hne : gs ≠ []) :
    ∃ c rest, join ':' gs = c :: rest ∧ c ≠ ':' := by
  obtain ⟨g, later, rfl⟩ := List.exists_cons_of_ne_nil hne
  have hg := hgs g List.mem_cons_self
  obtain ⟨c, more, rfl⟩ := List.exists_cons_of_ne_nil hg.ne_nil
  have hc : c ≠ ':' := by
    rintro rfl
    exact colon_not_mem hg List.mem_cons_self
  by_cases hlater : later = []
  · subst hlater
    exact ⟨c, more, join_singleton ':' _, hc⟩
  · exact ⟨c, more ++ ':' :: join ':' later, join_cons _ hlater, hc⟩

theorem join_last (hgs : ∀ g ∈ gs, IsGroup g) (hne : gs ≠ []) :
    ∃ init c, join ':' gs = init ++ [c] ∧ c ≠ ':' := by
  obtain ⟨before, g, rfl⟩ := (List.eq_nil_or_concat' gs).resolve_left hne
  have hg := hgs g (List.mem_append_right _ List.mem_cons_self)
  obtain ⟨more, c, rfl⟩ := (List.eq_nil_or_concat' g).resolve_left hg.ne_nil
  have hc : c ≠ ':' := by
    rintro rfl
    exact colon_not_mem hg (List.mem_append_right _ List.mem_cons_self)
  by_cases hbefore : before = []
  · subst hbefore
    exact ⟨more, c, join_singleton ':' _, hc⟩
  · refine ⟨join ':' before ++ ':' :: more, c, ?_, hc⟩
    rw [join_append hbefore (List.cons_ne_nil _ _), join_singleton, List.append_assoc]
    rfl

theorem not_prefix_join (hgs : ∀ g ∈ gs, IsGroup g) (hne : gs ≠ []) (more rest : Text) :
    ¬(':' :: more <+: join ':' gs ++ rest) := by
  obtain ⟨c, later, hhead, hc⟩ := join_head hgs hne
  rw [hhead, List.cons_append]
  intro h
  exact hc (List.cons_prefix_cons.mp h).1.symm

theorem not_suffix_join (hgs : ∀ g ∈ gs, IsGroup g) (hne : gs ≠ []) (more front : Text) :
    ¬more ++ [':'] <:+ front ++ join ':' gs := by
  obtain ⟨init, c, hend, hc⟩ := join_last hgs hne
  rw [hend, ← List.append_assoc]
  rintro ⟨t, ht⟩
  rw [← List.append_assoc] at ht
  exact hc (List.cons.inj (List.append_inj' ht rfl).2).1.symm

end Characters

section Acceptance

variable {host : ByteOrder} {s t : Text} {hi lo gs pieces : List Text}

/-- The address that is read from a text whose pieces are known. -/
theorem parsed_of_shape (host : ByteOrder) (hchars : ∀ c ∈ s, isIpv6Char c = true)
    (htrim : trim s = join ':' pieces) (hsep : ∀ piece ∈ pieces, ':' ∉ piece)
    (hone : pieces ≠ [[]]) (hshape : Shape pieces hi lo) (hhi : ∀ g ∈ hi, IsGroup g)
    (hlo : ∀ g ∈ lo, IsGroup g) :
    ∃ words, parseIpv6 host s = .ok words ∧ words.toList = (padded hi lo).map (htons host) := by
  obtain ⟨addr, hread, hlist⟩ := readWords_of_shape hshape hhi hlo
  refine ⟨Vector.map (htons host) addr, ?_, ?_⟩
  · rw [parseIpv6, if_pos (List.all_eq_true.mpr hchars), htrim, split_join hsep hone, hread]
    rfl
  · rw [Vector.toList_map, hlist]

theorem shape_of_accepted (h : Accepted host s) :
    (∀ c ∈ s, isIpv6Char c = true) ∧ ∃ hi lo, Shape (split ':' (trim s)) hi lo ∧
      (∀ g ∈ hi, IsGroup g) ∧ ∀ g ∈ lo, IsGroup g := by
  obtain ⟨words, hwords⟩ := h
  unfold parseIpv6 at hwords
  split at hwords
  · rename_i hall
    have hchars := List.all_eq_true.mp hall
    refine ⟨hchars, ?_⟩
    cases hread : readWords (split ':' (trim s)) with
    | error stop =>
      rw [hread] at hwords
      cases hwords
    | ok addr =>
      refine shape_of_readWords ?_ hread
      intro piece hpiece c hc
      obtain ⟨hmem, hne⟩ := mem_of_mem_split hpiece hc
      exact (isIpv6Char_iff.mp (hchars c (mem_of_mem_trim hmem))).resolve_right hne
  · cases hwords

/-- A text that starts with two colons has the shape of a gap at its start. -/
theorem front_wellFormed (hhi : ∀ g ∈ hi, IsGroup g) (hlo : ∀ g ∈ lo, IsGroup g)
    (h : Shape (split ':' (':' :: t)) hi lo) : WellFormed (':' :: ':' :: t) := by
  have hsplit : split ':' (':' :: t) = [] :: t.splitOn ':' := by
    rw [split, if_neg (List.cons_ne_nil _ _)]
    exact List.splitOn_append_cons_self [] t
  rw [hsplit] at h
  have hjoin : join ':' (t.splitOn ':') = t := List.intercalate_splitOn ':'
  generalize t.splitOn ':' = rest at h hjoin
  -- A group in front would be the empty piece.
  have hfirst : ∀ later, [] :: rest = hi ++ later → hi = [] := by
    intro later heq
    cases hi with
    | nil => rfl
    | cons g more => exact absurd (List.cons.inj heq).1.symm (hhi g List.mem_cons_self).ne_nil
  generalize hpieces : [] :: rest = pieces at h
  cases h with
  | full _ more hlen =>
    rw [hfirst more hpieces] at hlen
    cases hlen
  | short _ hlen =>
    have hnil := hfirst [] (hpieces.trans (List.append_nil _).symm)
    rw [hnil] at hpieces
    cases hpieces
  | gap _ _ hlen =>
    obtain rfl := hfirst _ hpieces
    obtain rfl : rest = lo := (List.cons.inj hpieces).2
    rw [← hjoin]
    exact ⟨[], rest, .gap [] rest (List.forall_mem_nil _) hlo (Nat.lt_succ_iff.mp hlen)⟩

theorem miscounted_of_full {more : List Text} {rest : Text}
    (hchars : ∀ c ∈ join ':' (gs ++ more) ++ rest, isIpv6Char c = true)
    (hgs : ∀ g ∈ gs, IsGroup g) (hlen : gs.length = 8) (hmore : more ≠ []) :
    Miscounted (join ':' (gs ++ more) ++ rest) := by
  rw [join_append (List.ne_nil_of_length_eq_add_one hlen) hmore, List.append_assoc,
    List.cons_append] at hchars ⊢
  refine .long gs _ hgs hlen fun c hc => hchars c ?_
  exact List.mem_append_right _ (List.mem_cons_of_mem _ hc)

/-- A text that ends with two colons has the shape of a gap at its end, or
eight groups come first. -/
theorem back_classified (hchars : ∀ c ∈ t ++ [':', ':'], isIpv6Char c = true)
    (hhi : ∀ g ∈ hi, IsGroup g) (hlo : ∀ g ∈ lo, IsGroup g)
    (h : Shape (split ':' (t ++ [':'])) hi lo) :
    WellFormed (t ++ [':', ':']) ∨ Miscounted (t ++ [':', ':']) := by
  have hsplit : split ':' (t ++ [':']) = t.splitOn ':' ++ [[]] := by
    rw [split, if_neg (List.append_ne_nil_of_right_ne_nil _ (List.cons_ne_nil _ _))]
    exact List.splitOn_append_cons_self t []
  have hjoin : join ':' (t.splitOn ':') = t := List.intercalate_splitOn ':'
  have htext := join_split ':' (t ++ [':'])
  rw [hsplit] at h htext
  generalize t.splitOn ':' = init at h hjoin htext
  -- A group at the end would be the empty piece.
  have hlast : ∀ front gs, init ++ [[]] = front ++ gs → (∀ g ∈ gs, IsGroup g) → gs = [] := by
    intro front gs heq hgs
    by_contra hne
    obtain ⟨before, g, rfl⟩ := (List.eq_nil_or_concat' gs).resolve_left hne
    rw [← List.append_assoc] at heq
    obtain rfl : [] = g := (List.cons.inj (List.append_inj' heq rfl).2).1
    exact (hgs [] (List.mem_append_right _ List.mem_cons_self)).ne_nil rfl
  generalize hpieces : init ++ [[]] = pieces at h htext
  cases h with
  | full _ more hlen =>
    have hmore : more ≠ [] := by
      rintro rfl
      have hnil := hlast [] hi (hpieces.trans (List.append_nil _)) hhi
      rw [hnil] at hlen
      cases hlen
    rw [append_two, ← htext] at hchars ⊢
    exact .inr (miscounted_of_full hchars hhi hlen hmore)
  | short _ hlen =>
    have hnil := hlast [] _ hpieces hhi
    rw [hnil] at hpieces
    exact absurd hpieces (List.append_ne_nil_of_right_ne_nil _ (List.cons_ne_nil _ _))
  | gap _ _ hlen =>
    have hnil : lo = [] := hlast (hi ++ [[]]) lo (hpieces.trans (by simp)) hlo
    subst hnil
    obtain rfl : init = hi := (List.append_inj' hpieces rfl).1
    rw [← hjoin]
    refine .inl ⟨init, [], ?_⟩
    have hgap := Denotes.gap init [] hhi (List.forall_mem_nil _) (Nat.lt_succ_iff.mp hlen)
    rwa [show join ':' [] = [] from rfl, List.append_nil] at hgap

/-- A text without two colons at an end is the pieces joined. -/
theorem same_classified (hchars : ∀ c ∈ join ':' pieces, isIpv6Char c = true)
    (hone : pieces ≠ [[]]) (hhi : ∀ g ∈ hi, IsGroup g) (hlo : ∀ g ∈ lo, IsGroup g)
    (h : Shape pieces hi lo) :
    WellFormed (join ':' pieces) ∨ Miscounted (join ':' pieces) := by
  cases h with
  | full _ more hlen =>
    by_cases hmore : more = []
    · subst hmore
      rw [List.append_nil]
      exact .inl ⟨hi, [], .full hi hhi hlen⟩
    · rw [← List.append_nil (join ':' (hi ++ more))] at hchars ⊢
      exact .inr (miscounted_of_full hchars hhi hlen hmore)
  | short _ hlen => exact .inr (.short _ hhi (Nat.lt_succ_iff.mp hlen))
  | gap _ _ hlen =>
    by_cases hfront : hi = []
    · subst hfront
      have hback : lo ≠ [] := by
        rintro rfl
        exact hone rfl
      rw [List.nil_append, join_cons [] hback]
      exact .inr (.leading lo hlo hback (by simpa using Nat.lt_succ_iff.mp hlen))
    · by_cases hback : lo = []
      · subst hback
        rw [join_append hfront (List.cons_ne_nil _ _)]
        exact .inr (.trailing hi hhi hfront (Nat.lt_succ_iff.mp hlen))
      · refine .inl ⟨hi, lo, ?_⟩
        have hgap := Denotes.gap hi lo hhi hlo (Nat.lt_succ_iff.mp hlen)
        rw [join_append hfront (List.cons_ne_nil _ _), join_cons [] hback]
        rwa [List.append_assoc] at hgap

theorem classified_of_accepted (h : Accepted host s) : WellFormed s ∨ Miscounted s := by
  obtain ⟨hchars, hi, lo, hshape, hhi, hlo⟩ := shape_of_accepted h
  have hcases := trim_cases s
  have hone := split_ne_singleton_nil ':' (trim s)
  have hjoin := join_split ':' (trim s)
  generalize trim s = t at hshape hcases hone hjoin
  cases hcases with
  | front t => exact .inl (front_wellFormed hhi hlo hshape)
  | back t => exact back_classified hchars hhi hlo hshape
  | same =>
    rw [← hjoin] at hchars ⊢
    exact same_classified hchars hone hhi hlo hshape

theorem parsed_alone (host : ByteOrder) (hgs : ∀ g ∈ gs, IsGroup g) (hlen : gs.length ≤ 8) :
    ∃ words, parseIpv6 host (join ':' gs) = .ok words ∧
      words.toList = (padded gs []).map (htons host) := by
  have hone : gs ≠ [[]] := by
    rintro rfl
    exact (hgs [] List.mem_cons_self).ne_nil rfl
  refine parsed_of_shape host (chars_join hgs) ?_ (fun g hg => colon_not_mem (hgs g hg)) hone ?_
    hgs nofun
  · by_cases hne : gs = []
    · subst hne
      rfl
    · have hstart := not_prefix_join hgs hne [':'] []
      rw [List.append_nil] at hstart
      exact trim_same hstart (not_suffix_join hgs hne [':'] [])
  · rcases Nat.lt_or_eq_of_le hlen with hshort | hfull
    · exact .short gs hshort
    · have hshape := Shape.full gs [] hfull
      rwa [List.append_nil] at hshape

/-- A text that is cut to groups around an empty piece is read. -/
theorem parsed_gap (host : ByteOrder) (hchars : ∀ c ∈ s, isIpv6Char c = true)
    (htrim : trim s = join ':' (hi ++ [] :: lo)) (hne : hi ≠ [] ∨ lo ≠ [])
    (hhi : ∀ g ∈ hi, IsGroup g) (hlo : ∀ g ∈ lo, IsGroup g)
    (hlen : hi.length + lo.length ≤ 7) :
    ∃ words, parseIpv6 host s = .ok words ∧ words.toList = (padded hi lo).map (htons host) := by
  refine parsed_of_shape host hchars htrim ?_ ?_ (.gap hi lo (Nat.lt_succ_iff.mpr hlen)) hhi hlo
  · intro piece hpiece
    rcases List.mem_append.mp hpiece with hfront | hrest
    · exact colon_not_mem (hhi piece hfront)
    · rcases List.mem_cons.mp hrest with rfl | hback
      · exact List.not_mem_nil
      · exact colon_not_mem (hlo piece hback)
  · intro hone
    have hlength := congrArg List.length hone
    simp only [List.length_append, List.length_cons, List.length_nil] at hlength
    rcases hne with hfront | hback
    · exact hfront (List.length_eq_zero_iff.mp (by omega))
    · exact hback (List.length_eq_zero_iff.mp (by omega))

/-- The double colon is read in every place where it has a group at a side. -/
theorem parsed_double (host : ByteOrder) (hne : hi ≠ [] ∨ lo ≠ []) (hhi : ∀ g ∈ hi, IsGroup g)
    (hlo : ∀ g ∈ lo, IsGroup g) (hlen : hi.length + lo.length ≤ 7) :
    ∃ words, parseIpv6 host (join ':' hi ++ [':', ':'] ++ join ':' lo) = .ok words ∧
      words.toList = (padded hi lo).map (htons host) := by
  have hchars : ∀ c ∈ join ':' hi ++ [':', ':'] ++ join ':' lo, isIpv6Char c = true := by
    rw [List.forall_mem_append, List.forall_mem_append]
    exact ⟨⟨chars_join hhi, List.all_eq_true.mp rfl⟩, chars_join hlo⟩
  refine parsed_gap host hchars ?_ hne hhi hlo hlen
  by_cases hfront : hi = []
  · subst hfront
    have hback := hne.resolve_left fun h => h rfl
    rw [List.nil_append, join_cons [] hback]
    exact trim_front _
  · have hstart := not_prefix_join hhi hfront [':']
    rw [join_append hfront (List.cons_ne_nil _ _)]
    by_cases hback : lo = []
    · subst hback
      rw [show join ':' [] = [] from rfl, List.append_nil]
      exact trim_back (hstart _)
    · have hend := not_suffix_join hlo hback [':'] (join ':' hi ++ [':', ':'])
      rw [join_cons [] hback]
      rw [List.append_assoc] at hend ⊢
      exact trim_same (hstart _) hend

theorem parsed_leading (host : ByteOrder) (hgs : ∀ g ∈ gs, IsGroup g) (hne : gs ≠ [])
    (hlen : gs.length ≤ 7) :
    ∃ words, parseIpv6 host (':' :: join ':' gs) = .ok words ∧
      words.toList = (padded [] gs).map (htons host) := by
  have hchars : ∀ c ∈ ':' :: join ':' gs, isIpv6Char c = true :=
    List.forall_mem_cons.mpr ⟨by decide, chars_join hgs⟩
  refine parsed_gap host hchars ?_ (.inr hne) nofun hgs (by simpa using hlen)
  have hstart := not_prefix_join hgs hne [] []
  rw [List.append_nil] at hstart
  rw [List.nil_append, join_cons [] hne]
  exact trim_same (fun h => hstart (List.cons_prefix_cons.mp h).2)
    (not_suffix_join hgs hne [':'] [':'])

theorem parsed_trailing (host : ByteOrder) (hgs : ∀ g ∈ gs, IsGroup g) (hne : gs ≠ [])
    (hlen : gs.length ≤ 7) :
    ∃ words, parseIpv6 host (join ':' gs ++ [':']) = .ok words ∧
      words.toList = (padded gs []).map (htons host) := by
  have hchars : ∀ c ∈ join ':' gs ++ [':'], isIpv6Char c = true :=
    List.forall_mem_append.mpr ⟨chars_join hgs, List.all_eq_true.mp rfl⟩
  refine parsed_gap host hchars ?_ (.inl hne) hgs nofun (by simpa using hlen)
  rw [join_append hne (List.cons_ne_nil _ _), join_singleton]
  refine trim_same (not_prefix_join hgs hne [':'] [':']) ?_
  rintro ⟨t, ht⟩
  rw [append_two] at ht
  exact not_suffix_join hgs hne t [] ((List.append_inj' ht rfl).1 ▸ List.suffix_rfl)

/-- Of eight groups and what follows a colon behind them, trimming can take the
last character only. -/
theorem trim_long (hgs : ∀ g ∈ gs, IsGroup g) (hne : gs ≠ []) (rest : Text) :
    ∃ more, trim (join ':' gs ++ ':' :: rest) = join ':' gs ++ ':' :: more := by
  have hcases := trim_cases (join ':' gs ++ ':' :: rest)
  generalize htrim : trim (join ':' gs ++ ':' :: rest) = t at hcases
  generalize hs : join ':' gs ++ ':' :: rest = s at hcases
  cases hcases with
  | front t =>
    exact absurd (hs ▸ List.prefix_rfl) (not_prefix_join hgs hne (':' :: t) (':' :: rest))
  | back t =>
    rw [append_two] at hs
    rcases List.eq_nil_or_concat' rest with rfl | ⟨more, x, rfl⟩
    · have hgroups := (List.append_inj' hs rfl).1
      exact absurd (hgroups ▸ List.suffix_rfl) (not_suffix_join hgs hne t [])
    · rw [← List.cons_append, ← List.append_assoc] at hs
      exact ⟨more, (List.append_inj' hs rfl).1.symm⟩
  | same => exact ⟨rest, hs.symm⟩

theorem parsed_long (host : ByteOrder) (hgs : ∀ g ∈ gs, IsGroup g) (hlen : gs.length = 8)
    {rest : Text} (hrest : ∀ c ∈ rest, isIpv6Char c = true) :
    ∃ words, parseIpv6 host (join ':' gs ++ ':' :: rest) = .ok words ∧
      words.toList = (padded gs []).map (htons host) := by
  have hne : gs ≠ [] := List.ne_nil_of_length_eq_add_one hlen
  have hchars : ∀ c ∈ join ':' gs ++ ':' :: rest, isIpv6Char c = true := by
    rw [List.forall_mem_append, List.forall_mem_cons]
    exact ⟨chars_join hgs, by decide, hrest⟩
  obtain ⟨more, htrim⟩ := trim_long hgs hne rest
  have hpieces : join ':' gs ++ ':' :: more = join ':' (gs ++ more.splitOn ':') := by
    rw [join_append hne (List.splitOn_ne_nil ':' more)]
    exact congrArg (fun t => join ':' gs ++ ':' :: t) (List.intercalate_splitOn ':').symm
  refine parsed_of_shape host hchars (htrim.trans hpieces) ?_ ?_ (.full gs _ hlen) hgs nofun
  · intro piece hpiece
    rcases List.mem_append.mp hpiece with hgroup | hmore
    · exact colon_not_mem (hgs piece hgroup)
    · exact not_mem_of_mem_splitOn hmore
  · intro hone
    have hlength := congrArg List.length hone
    rw [List.length_append, hlen, List.length_singleton] at hlength
    omega

/-- A double colon alone is cut to one, and its second piece is empty too. -/
theorem doubleColon_rejected (host : ByteOrder) : ¬Accepted host [':', ':'] := by
  rintro ⟨words, h⟩
  cases host <;> cases h

end Acceptance

section Pieces

variable {s : Text} {gs pieces : List Text}

theorem splitOn_join (hgs : ∀ g ∈ gs, IsGroup g) (hne : gs ≠ []) :
    (join ':' gs).splitOn ':' = gs :=
  List.splitOn_intercalate ':' (fun g hg => colon_not_mem (hgs g hg)) hne

theorem nil_not_mem (hgs : ∀ g ∈ gs, IsGroup g) : [] ∉ gs := fun h => (hgs [] h).ne_nil rfl

/-- One of the first eight pieces is empty, and is not at an end. -/
def InnerEmpty (pieces : List Text) : Prop :=
  ∃ front back, pieces = front ++ [] :: back ∧ front ≠ [] ∧ back ≠ [] ∧ front.length ≤ 7

theorem pieces_of_wellFormed (h : WellFormed s) :
    ((s.splitOn ':').length = 8 ∧ [] ∉ s.splitOn ':') ∨ InnerEmpty (s.splitOn ':') := by
  obtain ⟨hi, lo, hdenotes⟩ := h
  cases hdenotes with
  | full _ hgs hlen =>
    rw [splitOn_join hgs (List.ne_nil_of_length_eq_add_one hlen)]
    exact .inl ⟨hlen, nil_not_mem hgs⟩
  | gap _ _ hhi hlo hlen =>
    have hsplit : (join ':' hi ++ [':', ':'] ++ join ':' lo).splitOn ':' =
        (join ':' hi).splitOn ':' ++ [] :: (join ':' lo).splitOn ':' := by
      have htext : join ':' hi ++ [':', ':'] ++ join ':' lo =
          join ':' hi ++ ':' :: ([] ++ ':' :: join ':' lo) := by simp
      rw [htext, List.splitOn_append_cons_self, List.splitOn_append_cons_self]
      rfl
    refine .inr ⟨_, _, hsplit, List.splitOn_ne_nil _ _, List.splitOn_ne_nil _ _, ?_⟩
    by_cases hfront : hi = []
    · subst hfront
      decide
    · rw [splitOn_join hhi hfront]
      omega

/-- Pieces without an empty one, or with one at an end, have none inside. -/
theorem not_innerEmpty (hgs : ∀ g ∈ gs, IsGroup g)
    (h : pieces = gs ∨ pieces = [] :: gs ∨ pieces = gs ++ [[]]) : ¬InnerEmpty pieces := by
  rintro ⟨front, back, hpieces, hfront, hback, -⟩
  rcases h with rfl | rfl | rfl
  · exact nil_not_mem hgs (hpieces ▸ List.mem_append_right _ List.mem_cons_self)
  · obtain ⟨first, later, rfl⟩ := List.exists_cons_of_ne_nil hfront
    have hrest := (List.cons.inj hpieces).2
    exact nil_not_mem hgs (hrest ▸ List.mem_append_right _ List.mem_cons_self)
  · obtain ⟨before, last, rfl⟩ := (List.eq_nil_or_concat' back).resolve_left hback
    rw [← List.cons_append, ← List.append_assoc] at hpieces
    have hrest := (List.append_inj' hpieces rfl).1
    exact nil_not_mem hgs (hrest ▸ List.mem_append_right _ List.mem_cons_self)

theorem InnerEmpty.length_le (h : InnerEmpty pieces) : 3 ≤ pieces.length := by
  obtain ⟨front, back, rfl, hfront, hback, -⟩ := h
  have hbefore := List.length_pos_iff.mpr hfront
  have hbehind := List.length_pos_iff.mpr hback
  rw [List.length_append, List.length_cons]
  omega

/-- What is behind eight groups is not among the first eight pieces. -/
theorem not_innerEmpty_long (hgs : ∀ g ∈ gs, IsGroup g) (hlen : gs.length = 8)
    (more : List Text) : ¬InnerEmpty (gs ++ more) := by
  rintro ⟨front, back, heq, -, -, hfront⟩
  have hempty : (gs ++ more)[front.length]? = some [] := by
    rw [heq, List.getElem?_append_right (le_refl _), Nat.sub_self]
    rfl
  rw [List.getElem?_append_left (by omega)] at hempty
  exact nil_not_mem hgs (List.mem_of_getElem? hempty)

theorem splitOn_leading (hgs : ∀ g ∈ gs, IsGroup g) (hne : gs ≠ []) :
    (':' :: join ':' gs).splitOn ':' = [] :: gs :=
  calc (':' :: join ':' gs).splitOn ':' = [] :: (join ':' gs).splitOn ':' :=
        List.splitOn_append_cons_self [] _
    _ = [] :: gs := by rw [splitOn_join hgs hne]

theorem splitOn_trailing (hgs : ∀ g ∈ gs, IsGroup g) (hne : gs ≠ []) :
    (join ':' gs ++ [':']).splitOn ':' = gs ++ [[]] :=
  calc (join ':' gs ++ [':']).splitOn ':' = (join ':' gs).splitOn ':' ++ [[]] :=
        List.splitOn_append_cons_self _ []
    _ = gs ++ [[]] := by rw [splitOn_join hgs hne]

/-- The pieces of a text with miscounted groups are not those of an address. -/
theorem miscounted_not_wellFormed (h : Miscounted s) : ¬WellFormed s := by
  intro hwell
  have hpieces := pieces_of_wellFormed hwell
  cases h with
  | short gs hgs hlen =>
    by_cases hne : gs = []
    · subst hne
      have hone : (List.splitOn ':' (join ':' [])).length = 1 := rfl
      rcases hpieces with ⟨hfull, -⟩ | hinner
      · omega
      · have hthree := hinner.length_le
        omega
    · rw [splitOn_join hgs hne] at hpieces
      rcases hpieces with ⟨hfull, -⟩ | hinner
      · omega
      · exact not_innerEmpty hgs (.inl rfl) hinner
  | leading gs hgs hne hlen =>
    rw [splitOn_leading hgs hne] at hpieces
    rcases hpieces with ⟨-, hnone⟩ | hinner
    · exact hnone List.mem_cons_self
    · exact not_innerEmpty hgs (.inr (.inl rfl)) hinner
  | trailing gs hgs hne hlen =>
    rw [splitOn_trailing hgs hne] at hpieces
    rcases hpieces with ⟨-, hnone⟩ | hinner
    · exact hnone (List.mem_append_right _ List.mem_cons_self)
    · exact not_innerEmpty hgs (.inr (.inr rfl)) hinner
  | long gs rest hgs hlen hrest =>
    have hne := List.ne_nil_of_length_eq_add_one hlen
    rw [List.splitOn_append_cons_self, splitOn_join hgs hne] at hpieces
    rcases hpieces with ⟨hfull, -⟩ | hinner
    · have hmore := List.length_pos_iff.mpr (List.splitOn_ne_nil ':' rest)
      rw [List.length_append] at hfull
      omega
    · exact not_innerEmpty_long hgs hlen _ hinner

end Pieces

section Verdicts

variable {host : ByteOrder} {s : Text}

theorem accepted_of_miscounted (host : ByteOrder) (h : Miscounted s) : Accepted host s := by
  cases h with
  | short gs hgs hlen =>
    obtain ⟨words, hwords, -⟩ := parsed_alone host hgs (by omega)
    exact ⟨words, hwords⟩
  | leading gs hgs hne hlen =>
    obtain ⟨words, hwords, -⟩ := parsed_leading host hgs hne hlen
    exact ⟨words, hwords⟩
  | trailing gs hgs hne hlen =>
    obtain ⟨words, hwords, -⟩ := parsed_trailing host hgs hne hlen
    exact ⟨words, hwords⟩
  | long gs rest hgs hlen hrest =>
    obtain ⟨words, hwords, -⟩ := parsed_long host hgs hlen hrest
    exact ⟨words, hwords⟩

/-- Every text that is accepted is an address, the texts with miscounted groups
excepted. -/
theorem accepted_wellFormed_iff (host : ByteOrder) (s : Text) :
    (Accepted host s → WellFormed s) ↔ ¬Miscounted s := by
  constructor
  · intro hsound hmis
    exact miscounted_not_wellFormed hmis (hsound (accepted_of_miscounted host hmis))
  · intro hmis haccepted
    exact (classified_of_accepted haccepted).resolve_right hmis

/-- Two groups and no double colon. -/
theorem short_text_accepted : ¬∀ host s, Accepted host s → WellFormed s := by
  intro h
  have hmis : Miscounted ['1', ':', '2'] := .short [['1'], ['2']] (by decide) (by decide)
  exact miscounted_not_wellFormed hmis (h .little _ ⟨_, rfl⟩)

/-- The words of a denoted text, in the array's order. -/
theorem parsed_of_denotes (host : ByteOrder) {hi lo : List Text} (h : Denotes s hi lo)
    (hne : s ≠ [':', ':']) :
    ∃ words, parseIpv6 host s = .ok words ∧ words.toList = (padded hi lo).map (htons host) := by
  cases h with
  | full _ hgs hlen => exact parsed_alone host hgs hlen.le
  | gap _ _ hhi hlo hlen =>
    refine parsed_double host ?_ hhi hlo hlen
    by_contra hnone
    obtain ⟨rfl, rfl⟩ : hi = [] ∧ lo = [] := by simpa only [not_or, not_not] using hnone
    exact hne rfl

theorem doubleColon_wellFormed : WellFormed [':', ':'] :=
  ⟨[], [], .gap [] [] nofun nofun (by decide)⟩

/-- Every address is accepted, the double colon alone excepted. -/
theorem wellFormed_accepted_iff (host : ByteOrder) (s : Text) :
    (WellFormed s → Accepted host s) ↔ s ≠ [':', ':'] := by
  constructor
  · rintro hcomplete rfl
    exact doubleColon_rejected host (hcomplete doubleColon_wellFormed)
  · rintro hne ⟨hi, lo, hdenotes⟩
    obtain ⟨words, hwords, -⟩ := parsed_of_denotes host hdenotes hne
    exact ⟨words, hwords⟩

theorem doubleColon_missed : ¬∀ host s, WellFormed s → Accepted host s := fun h =>
  doubleColon_rejected .little (h .little _ doubleColon_wellFormed)

end Verdicts

section Words

variable {host : ByteOrder} {s : Text} {hi lo : List Text}

def values (hi lo : List Text) : List ℕ :=
  hi.map (value 16) ++ List.replicate (8 - (hi.length + lo.length)) 0 ++ lo.map (value 16)

def networkBytes (n : ℕ) : List (BitVec 8) := [BitVec.ofNat 8 (n / 256), BitVec.ofNat 8 (n % 256)]

theorem bytes_htons (host : ByteOrder) (w : Word) :
    host.bytes (htons host w) = [w.extractLsb' 8 8, w.extractLsb' 0 8] := by
  cases host with
  | little =>
    have hfirst : (htons .little w).extractLsb' 0 8 = w.extractLsb' 8 8 :=
      BitVec.extractLsb'_append_eq_right
    have hsecond : (htons .little w).extractLsb' 8 8 = w.extractLsb' 0 8 :=
      BitVec.extractLsb'_append_eq_left
    rw [ByteOrder.bytes, hfirst, hsecond]
  | big => rfl

theorem bytes_number (host : ByteOrder) (n : ℕ) :
    host.bytes (htons host (BitVec.ofNat 16 n)) = networkBytes n := by
  have hhigh : (BitVec.ofNat 16 n).extractLsb' 8 8 = BitVec.ofNat 8 (n / 256) := by
    apply BitVec.eq_of_toNat_eq
    rw [BitVec.extractLsb'_toNat, BitVec.toNat_ofNat, BitVec.toNat_ofNat,
      Nat.shiftRight_eq_div_pow]
    omega
  have hlow : (BitVec.ofNat 16 n).extractLsb' 0 8 = BitVec.ofNat 8 (n % 256) := by
    apply BitVec.eq_of_toNat_eq
    rw [BitVec.extractLsb'_toNat, BitVec.toNat_ofNat, BitVec.toNat_ofNat, Nat.shiftRight_zero]
    omega
  rw [bytes_htons, hhigh, hlow, networkBytes]

theorem padded_eq_values (hi lo : List Text) :
    padded hi lo = (values hi lo).map (BitVec.ofNat 16) := by
  simp only [padded, values, List.map_append, List.map_map, List.map_replicate]
  rfl

/-- No write of the parser is outside an array, and the words of an address are
its groups' numbers in network byte order. -/
theorem parsed_words (host : ByteOrder) (s : Text) :
    parseIpv6 host s ≠ .error .outOfRange ∧
      ∀ hi lo words, Denotes s hi lo → parseIpv6 host s = .ok words →
        words.toList.flatMap host.bytes = (values hi lo).flatMap networkBytes := by
  refine ⟨parseIpv6_inRange host s, ?_⟩
  intro hi lo words hdenotes hwords
  have hne : s ≠ [':', ':'] := by
    rintro rfl
    exact doubleColon_rejected host ⟨words, hwords⟩
  obtain ⟨words', hwords', hlist⟩ := parsed_of_denotes host hdenotes hne
  obtain rfl : words' = words := Except.ok.inj (hwords'.symm.trans hwords)
  rw [hlist, padded_eq_values, List.map_map, List.flatMap_map]
  exact congrArg (fun f => (values hi lo).flatMap f) (funext (bytes_number host))

theorem parsed_words_sample :
    ∃ words, parseIpv6 .little ['1', ':', ':', '2'] = .ok words ∧
      words.toList.flatMap ByteOrder.little.bytes =
        (values [['1']] [['2']]).flatMap networkBytes := by
  have hdenotes : Denotes ['1', ':', ':', '2'] [['1']] [['2']] :=
    .gap [['1']] [['2']] (by decide) (by decide) (by decide)
  exact ⟨_, rfl, (parsed_words .little _).2 _ _ _ hdenotes rfl⟩

end Words

end Bc.Ipv6Texts

import Lox.Diagnostic.Snippet
import Lox.Source
import Lox.Proofs.Parse.Chronicle
import Lox.Proofs.Spans

/-!
# Pointers

A snippet shows a diagnostic with its source line, and a caret under its column.  The key fact: the
line on which a token or a diagnostic is placed exists, and from the column on it begins with what
the token or the diagnostic is about.  So, if the places of the source fit into 32 bits, the pointer
of a snippet is never without a caret (`readProgram_pointers`).
-/

namespace Lox

/-- The token is found in the text of a line: from the column on there is its lexeme, of a lexeme of
several lines the last one, and of the end of input nothing. -/
def Token.FoundIn (t : Token) (text : String) (column : Nat) : Prop :=
  if t.kind = .eof then text.length ≤ column - 1
  else Text.lastLine t.lexeme.toList <+: text.toList.drop (column - 1)

/-- What the location names is found in the text of the line from the column on. -/
def Location.FoundIn (l : Location) (text : String) (column : Nat) : Prop :=
  match l with
  | .atLexeme lexeme => Text.lastLine lexeme.toList <+: text.toList.drop (column - 1)
  | .atEnd => text.length ≤ column - 1
  | .unstated | .verbatim _ => False

/-- What a diagnostic of the source is about is found in the text of its line from the column on.  A
string that is never closed is found if it does not go on behind that line. -/
def Diagnostic.FoundIn (d : Diagnostic) (source text : String) (column : Nat) : Prop :=
  match d.cause with
  | .unexpectedCharacter c => [c] <+: text.toList.drop (column - 1)
  | .unterminatedString =>
    ∃ s ∈ Segment.segments source.toList, s.shape = .openString ∧
      ('\n' ∉ s.text → ['"'] <+: text.toList.drop (column - 1))
  | _ => d.location.FoundIn text column

/-- The source has the line of the place, and something is found there from the column on. -/
structure Place.Shows (p : Place) (source : String) (found : String → Nat → Prop) : Prop where
  one_le_column : 1 ≤ p.column
  exists_line : ∃ text, Text.line? source.toList p.line = some text ∧
    found (String.ofList text) p.column

/-- A place that fits is also found by its position. -/
theorem Place.Shows.position {p : Place} {source : String} {found : String → Nat → Prop}
    (h : p.Shows source found) (hp : p.Fits) : 1 ≤ p.position.column ∧ ∃ text,
      sourceLine? source p.position.line = some text ∧ found text p.position.column := by
  have hline : p.position.line.toNat = p.line := congrArg Place.line hp.place_position
  have hcolumn : p.position.column.toNat = p.column := congrArg Place.column hp.place_position
  obtain ⟨text, htext, hfound⟩ := h.exists_line
  refine ⟨UInt32.le_iff_toNat_le.2 (by rw [hcolumn]; exact h.one_le_column), String.ofList text,
    ?_, by rwa [hcolumn]⟩
  rw [sourceLine?, hline, htext]
  rfl

open Segment

/-! ### Tokens -/

theorem ne_newline_of_not_mem_blanks {c : Char} (h : c ∉ blanks) : c ≠ '\n' ∧ c ≠ '\r' := by
  simp only [blanks, List.mem_cons, List.not_mem_nil, or_false, not_or] at h
  exact ⟨h.2.2.2, h.2.2.1⟩

/-- A segment that stands for a token or for a stray character is found where it is placed. -/
theorem exists_line_of_mem_spans {source : String} {x : List Char × Segment}
    (hx : x ∈ spans [] (segments source.toList))
    (hs : x.2.shape ∉ [Shape.blank, .comment, .openString]) : ∃ text,
      Text.line? source.toList (x.2.placeIn x.1).line = some text ∧
        Text.lastLine x.2.text <+: text.drop ((x.2.placeIn x.1).column - 1) := by
  obtain ⟨rest, hrest, hplace⟩ := (segmentation_segments source.toList).of_mem_spans hx
  obtain ⟨w, c, hw, hc⟩ := hplace.endsVisibly hs
  obtain ⟨hn, hr⟩ := ne_newline_of_not_mem_blanks hc
  obtain ⟨text, hline, hfound⟩ := Text.line?_ofLexeme (w := w) hn hr x.1 rest
  rw [← hw, ← hrest] at hline
  rw [← hw] at hfound
  exact ⟨text, hline, hfound⟩

/-- The token is placed where it is found, at a place that fits if all places of the source do. -/
def Token.Found (t : Token) (source : String) : Prop :=
  ∃ p : Place, t.toPosition = p.position ∧ (Text.Fits source.toList → p.Fits) ∧
    p.Shows source t.FoundIn

theorem Token.found_of_mem_body_scan {source : String} {t : Token}
    (ht : t ∈ (scan source).tokens.body) : t.Found source := by
  rw [body_scan_spans] at ht
  obtain ⟨⟨before, s⟩, hx, ht⟩ := List.mem_filterMap.1 ht
  have hplaced := map_token?_place (s.placeIn before).position s
  have ht : s.token? (s.placeIn before).position = some t := ht
  rw [ht] at hplaced
  obtain ⟨k, hk, hplaced⟩ := Option.map_eq_some_iff.1 hplaced.symm
  obtain ⟨hposition, rfl, hlexeme⟩ : (s.placeIn before).position = t.toPosition ∧ k = t.kind ∧
      s.lexeme = t.lexeme := by simpa using hplaced
  obtain ⟨rest, -, hplace⟩ := (segmentation_segments source.toList).of_mem_spans hx
  have heof : t.kind ≠ .eof := fun he => hplace.kind?_ne_eof (he ▸ hk)
  obtain ⟨text, hline, hfound⟩ := exists_line_of_mem_spans hx (shape_not_mem_of_kind? hk)
  refine ⟨s.placeIn before, hposition.symm, fun h => fits_of_mem_spans h hx,
    Place.one_le_column_ofLexeme before s.text, text, hline, ?_⟩
  rw [FoundIn, if_neg heof, ← hlexeme, Segment.lexeme, String.toList_ofList, String.toList_ofList]
  exact hfound

theorem Token.found_of_mem_scan {source : String} {t : Token}
    (ht : t ∈ (scan source).tokens.toList) : t.Found source := by
  rcases List.mem_append.1 ht with ht | ht
  · exact found_of_mem_body_scan ht
  · rw [List.mem_singleton, last_scan] at ht
    subst ht
    obtain ⟨text, hline, hend⟩ := Text.line?_ofLexeme_nil source.toList
    refine ⟨.ofLexeme source.toList [], rfl, fun h => ?_, Place.one_le_column_ofLexeme _ _, text,
      hline, ?_⟩
    · exact fits_of_mem_tokenPlaces h _ (by simp [tokenPlaces])
    · rw [FoundIn, if_pos rfl, String.length_ofList]
      exact hend

/-! ### Diagnostics -/

/-- The diagnostic is placed where it is found, at a place that fits if all places of the source
do. -/
def Diagnostic.Found (d : Diagnostic) (source : String) : Prop :=
  ∃ p : Place, d.line = p.position.line ∧ d.column = some p.position.column ∧
    (Text.Fits source.toList → p.Fits) ∧ p.Shows source (d.FoundIn source)

/-- A string that is never closed is found where it is placed if it ends on the line on which it
begins. -/
theorem exists_line_of_openString {source : String} {before w : List Char}
    (hx : (before, ⟨.openString, '"' :: w⟩) ∈ spans [] (segments source.toList)) : ∃ text,
      Text.line? source.toList (placeIn before ⟨.openString, '"' :: w⟩).line = some text ∧
        ('\n' ∉ '"' :: w →
          ['"'] <+: text.drop ((placeIn before ⟨.openString, '"' :: w⟩).column - 1)) := by
  obtain ⟨rest, hrest, -⟩ := (segmentation_segments source.toList).of_mem_spans hx
  have hrest : source.toList = before ++ '"' :: w ++ rest := hrest
  by_cases hn : '\n' ∈ '"' :: w
  · have hline := Text.line?_line_ofLexeme before ('"' :: w) rest
    rw [← hrest] at hline
    exact ⟨_, hline, fun h => absurd hn h⟩
  · obtain ⟨text, hline, hfound⟩ :=
      Text.line?_ofLexeme_of_not_mem (v := []) (c := '"') hn (by decide) before rest
    rw [List.nil_append, List.singleton_append, ← hrest] at hline
    exact ⟨text, hline, fun _ => hfound⟩

theorem Diagnostic.found_of_mem_scan {source : String} {d : Diagnostic}
    (hd : d ∈ (scan source).diagnostics) : d.Found source := by
  rw [diagnostics_scan_spans] at hd
  obtain ⟨⟨before, s⟩, hx, hd⟩ := List.mem_filterMap.1 hd
  obtain ⟨rest, -, hplace⟩ := (segmentation_segments source.toList).of_mem_spans hx
  have hfits : Text.Fits source.toList → (s.placeIn before).Fits := fun h => fits_of_mem_spans h hx
  have hcolumn := Place.one_le_column_ofLexeme before s.text
  have hvisible := hplace.endsVisibly
  cases hplace with
  | lexeme h => cases h.lexeme <;> cases hd
  | @stray c =>
    cases hd
    obtain ⟨text, hline, hfound⟩ := exists_line_of_mem_spans hx (by simp)
    obtain ⟨v, c', hv, hblank⟩ := hvisible (by simp)
    obtain rfl : c = c' := by simpa using congrArg List.getLast? hv
    have hlast : Text.lastLine [c] = [c] :=
      Text.lastLine_of_not_mem (by simpa using (ne_newline_of_not_mem_blanks hblank).1.symm)
    have hfound : Text.lastLine [c] <+: _ := hfound
    rw [hlast] at hfound
    refine ⟨_, rfl, rfl, hfits, hcolumn, text, hline, ?_⟩
    show [c] <+: (String.ofList text).toList.drop _
    rwa [String.toList_ofList]
  | openString =>
    cases hd
    obtain ⟨text, hline, hfound⟩ := exists_line_of_openString hx
    refine ⟨_, rfl, rfl, hfits, hcolumn, text, hline, _, snd_mem_of_mem_spans hx, rfl, ?_⟩
    rwa [String.toList_ofList]

theorem Token.FoundIn.ofToken {t : Token} {text : String} {column : Nat}
    (h : t.FoundIn text column) : (Location.ofToken t).FoundIn text column := by
  unfold FoundIn at h
  unfold Location.ofToken
  split at h
  · next he => rwa [if_pos he]
  · next he => rwa [if_neg he]

/-- Where a diagnostic is placed, the caret of its snippet stands, if the places of the source
fit. -/
theorem Diagnostic.Found.pointer {source : String} {d : Diagnostic} (h : d.Found source)
    (hfits : Text.Fits source.toList) : ∃ column text, d.column = some column ∧ 1 ≤ column ∧
      sourceLine? source d.line = some text ∧ d.FoundIn source text column ∧
      d.pointer source = d.gutter ++ " " ++ Diagnostic.caret text column := by
  obtain ⟨p, hline, hcolumn, hp, hshows⟩ := h
  obtain ⟨hpos, text, htext, hfound⟩ := hshows.position (hp hfits)
  rw [← hline] at htext
  refine ⟨p.position.column, text, hcolumn, hpos, htext, hfound, ?_⟩
  rw [Diagnostic.pointer, htext, hcolumn]

end Lox

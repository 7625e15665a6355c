import Lox.Proofs.Segmentation
import Lox.Proofs.Text.Place

/-!
# Spans

The span of a segment: the segment with all the text in front of it.  The places that a scan gives
to its tokens and diagnostics can be read off the spans alone (`placed_after_start`).  The key fact:
they are those of the lexemes, and the tokens stand in the order of their places (`scan_places`).
-/

namespace Lox

namespace Segment

/-- The segments with the texts in front of them, the first one behind `before`. -/
def spans (before : List Char) : List Segment → List (List Char × Segment)
  | [] => []
  | s :: ss => (before, s) :: spans (before ++ s.text) ss

theorem filterMap_spans_cons {α : Type} (f : List Char → Segment → Option α) (before : List Char)
    (s : Segment) (ss : List Segment) :
    (spans before (s :: ss)).filterMap (fun (before, s) => f before s) =
      (f before s).toList ++
        (spans (before ++ s.text) ss).filterMap (fun (before, s) => f before s) := by
  rw [spans, List.filterMap_cons]
  dsimp only
  cases f before s <;> rfl

/-- The place of a segment behind the text `before`. -/
def placeIn (before : List Char) (s : Segment) : Place :=
  .ofLexeme before s.text

theorem place_after_start (before : List Char) (s : Segment) :
    s.place (Place.start.after before) = s.placeIn before := by
  rw [place, ← Place.after_append, Place.after_start, Place.after_start]
  simp [placeIn, Place.ofLexeme]

theorem placed_after_start (before : List Char) (ss : List Segment) :
    placed (Place.start.after before) ss =
      (spans before ss).map fun (before, s) => (s.placeIn before, s) := by
  induction ss generalizing before with
  | nil => rfl
  | cons s ss ih =>
    rw [placed, spans, List.map_cons, place_after_start, ← Place.after_append, ih]

theorem snd_mem_of_mem_spans {before : List Char} {ss : List Segment} {x : List Char × Segment}
    (hx : x ∈ spans before ss) : x.2 ∈ ss := by
  induction ss generalizing before with
  | nil => cases hx
  | cons s ss ih =>
    rw [spans, List.mem_cons] at hx
    rcases hx with rfl | hx
    · exact List.mem_cons_self ..
    · exact List.mem_cons_of_mem s (ih hx)

/-- Every span lies in the text. -/
theorem Segmentation.of_mem_spans {cs : List Char} {ss : List Segment} (h : Segmentation cs ss)
    {before : List Char} {x : List Char × Segment} (hx : x ∈ spans before ss) :
    ∃ rest, before ++ cs = x.1 ++ x.2.text ++ rest ∧ InPlace x.2 rest := by
  induction h generalizing before with
  | nil => cases hx
  | @cons s rest ss h _ ih =>
    rw [spans, List.mem_cons] at hx
    rcases hx with rfl | hx
    · exact ⟨rest, by simp, h⟩
    · rw [← List.append_assoc]
      exact ih hx

/-! ### Last characters -/

/-- The last character is no blank. -/
def EndsVisibly (w : List Char) : Prop :=
  ∃ v c, w = v ++ [c] ∧ c ∉ blanks

theorem endsVisibly_of_forall {w : List Char} (hne : w ≠ []) (h : ∀ c ∈ w, c ∉ blanks) :
    EndsVisibly w := by
  obtain ⟨v, c, rfl⟩ := (List.eq_nil_or_concat w).resolve_left hne
  exact ⟨v, c, List.concat_eq_append, h c (by simp)⟩

private theorem not_mem_blanks_of_isWordPart {c : Char} (h : isWordPart c = true) : c ∉ blanks := by
  -- a Boolean test of the list, since a `∀` may be decided by running through all characters
  have key : blanks.all (fun c => !isWordPart c) = true := by decide
  intro hc
  have hpart := List.all_eq_true.1 key c hc
  rw [h] at hpart
  cases hpart

private theorem not_mem_blanks_of_isDigit {c : Char} (h : IsDigit c) : c ∉ blanks :=
  not_mem_blanks_of_isWordPart (isWordPart_iff.2 (.inr h))

/-- Blanks stand only in blanks, comments and strings. -/
theorem Lexeme.not_mem_blanks {shape : Shape} {w : List Char} (h : Lexeme shape w)
    (hs : shape ∉ [Shape.blank, .comment, .string]) : ∀ c ∈ w, c ∉ blanks := by
  have hsymbols : symbols.all (fun k => k.text.toList.all (· ∉ blanks)) = true := by decide
  cases h with
  | blank | comment | string => simp at hs
  | integer _ h => exact fun c hc => not_mem_blanks_of_isDigit (h c hc)
  | decimal _ h _ h' =>
    intro c hc
    rw [List.mem_append, List.mem_cons] at hc
    rcases hc with hc | rfl | hc
    · exact not_mem_blanks_of_isDigit (h c hc)
    · decide
    · exact not_mem_blanks_of_isDigit (h' c hc)
  | word hletter h =>
    refine List.forall_mem_cons.2 ⟨?_, ?_⟩
    · exact not_mem_blanks_of_isWordPart (isWordPart_iff.2 (.inl hletter))
    · exact fun d hd => not_mem_blanks_of_isWordPart (isWordPart_iff.2 (h d hd))
  | symbol hk =>
    have hall := List.all_eq_true.1 (List.all_eq_true.1 hsymbols _ hk)
    exact fun c hc => of_decide_eq_true (hall c hc)

theorem Lexeme.endsVisibly {shape : Shape} {w : List Char} (h : Lexeme shape w)
    (hb : shape ≠ .blank) (hc : shape ≠ .comment) : EndsVisibly w := by
  by_cases hs : shape = .string
  · subst hs
    cases h
    exact ⟨_, _, rfl, by decide⟩
  · exact endsVisibly_of_forall h.ne_nil (h.not_mem_blanks (by simp [hb, hc, hs]))

theorem not_mem_blanks_of_forall {c : Char} {rest : List Char}
    (h : ∀ shape w, Lexeme shape w → ¬w <+: c :: rest) : c ∉ blanks := by
  intro hc
  have hblank : Lexeme .blank [c] := .blank (List.cons_ne_nil _ _) (by simpa using hc)
  exact h .blank [c] hblank (List.cons_prefix_cons.2 ⟨rfl, List.nil_prefix⟩)

/-- Only blanks and strings go over several lines. -/
theorem InPlace.newline_not_mem {s : Segment} {rest : List Char} (h : InPlace s rest)
    (hs : s.shape ∉ [Shape.blank, .string, .openString]) : '\n' ∉ s.text := by
  have hnewline : '\n' ∈ blanks := by simp [blanks]
  simp only [List.mem_cons, List.not_mem_nil, or_false, not_or] at hs
  cases h with
  | @lexeme shape w _ h =>
    by_cases hc : shape = .comment
    · subst hc
      cases h.lexeme with
      | comment hw => simp [hw]
    · exact fun hn => h.lexeme.not_mem_blanks (by simp [hs.1, hs.2.1, hc]) '\n' hn hnewline
  | @stray c rest _ h =>
    intro hn
    obtain rfl : '\n' = c := by simpa using hn
    exact not_mem_blanks_of_forall h hnewline
  | openString => exact absurd rfl hs.2.2

/-- What stands for a token or for a stray character ends visibly. -/
theorem InPlace.endsVisibly {s : Segment} {rest : List Char} (h : InPlace s rest)
    (hs : s.shape ∉ [Shape.blank, .comment, .openString]) : EndsVisibly s.text := by
  simp only [List.mem_cons, List.not_mem_nil, or_false, not_or] at hs
  cases h with
  | lexeme h => exact h.lexeme.endsVisibly hs.1 hs.2.1
  | @stray c rest _ h => exact ⟨[], c, rfl, not_mem_blanks_of_forall h⟩
  | openString => exact absurd rfl hs.2.2

theorem shape_not_mem_of_kind? {s : Segment} {k : TokenKind} (h : s.kind? = some k) :
    s.shape ∉ [Shape.blank, .comment, .openString] := by
  obtain ⟨shape, w⟩ := s
  cases shape <;> simp_all [kind?]

/-! ### The order of places -/

/-- The places of the segments that stand for tokens, and the place behind the text. -/
def tokenPlaces (before : List Char) (ss : List Segment) (cs : List Char) : List Place :=
  (spans before ss).filterMap (fun (before, s) => s.kind?.map fun _ => s.placeIn before) ++
    [Place.ofLexeme (before ++ cs) []]

theorem Segmentation.pairwise_tokenPlaces {cs : List Char} {ss : List Segment}
    (h : Segmentation cs ss) (before : List Char) :
    (∀ p ∈ tokenPlaces before ss cs, Place.ofLexeme before [] ≤ p) ∧
      (tokenPlaces before ss cs).Pairwise (· < ·) := by
  induction h generalizing before with
  | nil => simp [tokenPlaces, spans]
  | @cons s rest ss h hss ih =>
    obtain ⟨hle, hlt⟩ := ih (before ++ s.text)
    have hbehind : ∀ p ∈ tokenPlaces (before ++ s.text) ss rest, Place.ofLexeme before [] ≤ p :=
      fun p hp => (Place.ofLexeme_nil_le_append before s.text).trans (hle p hp)
    have hplaces : tokenPlaces before (s :: ss) (s.text ++ rest) =
        (s.kind?.map fun _ => s.placeIn before).toList ++
          tokenPlaces (before ++ s.text) ss rest := by
      rw [tokenPlaces, filterMap_spans_cons fun before s => s.kind?.map fun _ => s.placeIn before,
        List.append_assoc, ← List.append_assoc before]
      rfl
    rw [hplaces]
    cases hk : s.kind? with
    | none => exact ⟨hbehind, hlt⟩
    | some k =>
      obtain ⟨v, c, hs, hc⟩ := h.endsVisibly (shape_not_mem_of_kind? hk)
      have hnext : s.placeIn before < Place.ofLexeme (before ++ s.text) [] := by
        rw [placeIn, hs]
        exact Place.ofLexeme_lt (fun hnl => hc (by simp [hnl, blanks])) before
      refine ⟨List.forall_mem_cons.2 ⟨Place.ofLexeme_nil_le before s.text, hbehind⟩, ?_⟩
      exact List.pairwise_cons.2 ⟨fun p hp => hnext.trans_le (hle p hp), hlt⟩

/-! ### Tokens and diagnostics -/

theorem map_token?_place (p : Position) (s : Segment) :
    (s.token? p).map (fun t => (t.toPosition, t.kind, t.lexeme)) =
      s.kind?.map fun k => (p, k, s.lexeme) := by
  obtain ⟨shape, w⟩ := s
  cases shape <;> rfl

end Segment

open Segment

theorem body_scan_spans (source : String) : (scan source).tokens.body =
    (spans [] (segments source.toList)).filterMap fun (before, s) =>
      s.token? (s.placeIn before).position := by
  have hplaced := placed_after_start [] (segments source.toList)
  rw [Place.after_nil] at hplaced
  show (placed .start _).filterMap _ = _
  rw [hplaced, List.filterMap_map]
  rfl

theorem diagnostics_scan_spans (source : String) : (scan source).diagnostics =
    (spans [] (segments source.toList)).filterMap fun (before, s) =>
      s.diagnostic? (s.placeIn before).position := by
  have hplaced := placed_after_start [] (segments source.toList)
  rw [Place.after_nil] at hplaced
  show (placed .start _).filterMap _ = _
  rw [hplaced, List.filterMap_map]
  rfl

theorem last_scan (source : String) : (scan source).tokens.last =
    ⟨(Place.ofLexeme source.toList []).position, .eof, "", none⟩ := by
  rw [← Place.after_start]
  rfl

theorem map_body_scan (source : String) :
    (scan source).tokens.body.map (fun t => (t.toPosition, t.kind, t.lexeme)) =
      (spans [] (segments source.toList)).filterMap fun (before, s) =>
        s.kind?.map fun k => ((s.placeIn before).position, k, s.lexeme) := by
  rw [body_scan_spans, List.map_filterMap]
  exact List.filterMap_congr fun x _ => map_token?_place (x.2.placeIn x.1).position x.2

theorem map_toPosition_scan (source : String) :
    (scan source).tokens.toList.map (·.toPosition) =
      (tokenPlaces [] (segments source.toList) source.toList).map Place.position := by
  have hbody := congrArg (List.map Prod.fst) (map_body_scan source)
  rw [List.map_map, List.map_filterMap] at hbody
  rw [TokenStream.toList, List.map_append, tokenPlaces, last_scan, List.map_append,
    List.map_filterMap]
  congr 1
  refine hbody.trans (List.filterMap_congr fun x _ => ?_)
  rw [Option.map_map, Option.map_map]
  rfl

theorem fits_of_mem_spans {source : String} (h : Text.Fits source.toList)
    {x : List Char × Segment} (hx : x ∈ spans [] (segments source.toList)) :
    (x.2.placeIn x.1).Fits := by
  obtain ⟨rest, hrest, -⟩ := (segmentation_segments source.toList).of_mem_spans hx
  rw [List.nil_append] at hrest
  exact (hrest ▸ h).ofLexeme

theorem fits_of_mem_tokenPlaces {source : String} (h : Text.Fits source.toList) :
    ∀ p ∈ tokenPlaces [] (segments source.toList) source.toList, p.Fits := by
  intro p hp
  rcases List.mem_append.1 hp with hp | hp
  · obtain ⟨x, hx, hp⟩ := List.mem_filterMap.1 hp
    obtain ⟨-, -, rfl⟩ := Option.map_eq_some_iff.1 hp
    exact fits_of_mem_spans h hx
  · rw [List.mem_singleton.1 hp]
    have hall : Text.Fits (source.toList ++ [] ++ []) := by simpa using h
    exact hall.ofLexeme

/-- The tokens of a scan are in the order of their positions, if these tell the places. -/
theorem pairwise_toPosition_scan {source : String} (h : Text.Fits source.toList) :
    (scan source).tokens.toList.Pairwise fun t u => t.toPosition < u.toPosition := by
  have hfits := fits_of_mem_tokenPlaces h
  have hplaces := ((segmentation_segments source.toList).pairwise_tokenPlaces []).2
  rw [← List.pairwise_map, map_toPosition_scan, List.pairwise_map]
  exact hplaces.imp_of_mem fun hp hq => (hfits _ hp).position_lt (hfits _ hq)

end Lox

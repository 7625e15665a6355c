import Lox.Proofs.Scan.Break

/-!
# Lexemes with gaps

The lexemes of a source can be written one behind the other with any blanks between them, and are
read as the same tokens again (`scan_spaced`).  So a lexeme alone decides its token, whatever the
rest of the source was: comments and stray characters are gone, and two lexemes that stood close
together are apart.
-/

namespace Lox

/-- The tokens that are no end of input. -/
def TokenStream.proper (s : TokenStream) : List Token :=
  s.toList.filter (·.kind ≠ .eof)

/-- What a token is, without its place. -/
def Token.content (t : Token) : TokenKind × String × Option Literal :=
  (t.kind, t.lexeme, t.literal)

/-- Some blanks, at least one. -/
structure Gap where
  text : List Char
  ne_nil : text ≠ []
  blank : ∀ c ∈ text, c ∈ Segment.blanks

/-- The texts one behind the other, with gaps between them. -/
def spaced (gaps : Nat → Gap) : List (List Char) → List Char
  | [] => []
  | [w] => w
  | w :: v :: ws => w ++ (gaps 0).text ++ spaced (fun i => gaps (i + 1)) (v :: ws)

open Segment

theorem Gap.breaks {shape : Shape} (gap : Gap) (hs : shape ≠ .comment) (cs : List Char) :
    Breaks shape (gap.text ++ cs) := by
  obtain ⟨_ | ⟨b, w⟩, hne, hblank⟩ := gap
  · exact absurd rfl hne
  · exact breaks_cons (hblank b (by simp)) (fun h => absurd h hs) (w ++ cs)

/-! ### Segments that stand for tokens -/

namespace Segment

/-- The segment stands for a token. -/
def isProper (s : Segment) : Bool :=
  s.kind?.isSome

/-- What the token is that a segment stands for. -/
def content? (s : Segment) : Option (TokenKind × String × Option Literal) :=
  (s.token? .start).map Token.content

theorem map_content_token? (p : Position) (s : Segment) :
    (s.token? p).map Token.content = s.content? := by
  obtain ⟨shape, w⟩ := s
  cases shape <;> rfl

theorem isSome_content? (s : Segment) : s.content?.isSome = s.isProper := by
  obtain ⟨shape, w⟩ := s
  cases shape <;> rfl

theorem diagnostic?_eq_none {s : Segment} (h : s.isProper = true) (p : Position) :
    s.diagnostic? p = none := by
  obtain ⟨shape, w⟩ := s
  cases shape <;> simp_all [isProper, kind?, diagnostic?]

/-- A token has the text of its segment as its lexeme. -/
theorem map_lexeme_content? (s : Segment) :
    s.content?.map (fun x => x.2.1.toList) = if s.isProper then some s.text else none := by
  obtain ⟨shape, w⟩ := s
  cases shape <;> simp [content?, token?, isProper, kind?, Token.content, lexeme]

theorem filterMap_content? (ss : List Segment) :
    (ss.filter isProper).filterMap content? = ss.filterMap content? := by
  rw [List.filterMap_filter]
  refine List.filterMap_congr fun s _ => ?_
  rw [← isSome_content?]
  cases s.content? <;> rfl

theorem map_lexeme_filterMap_content? (ss : List Segment) :
    (ss.filterMap content?).map (fun x => x.2.1.toList) = (ss.filter isProper).map text := by
  rw [List.map_filterMap, ← List.filterMap_eq_map, List.filterMap_filter]
  exact List.filterMap_congr fun s _ => map_lexeme_content? s

theorem shape_of_isProper {s : Segment} (h : s.isProper = true) :
    s.shape ≠ .blank ∧ s.shape ≠ .comment ∧ s.shape ≠ .openString := by
  obtain ⟨k, hk⟩ := Option.isSome_iff_exists.1 h
  simpa using shape_not_mem_of_kind? hk

/-- A segment that stands for a token is found in front of any break. -/
theorem InPlace.visible_append_of_breaks {s : Segment} {rest x : List Char} (h : InPlace s rest)
    (hs : s.isProper = true) (hx : Breaks s.shape x) (p : Place) :
    visible p (s.text ++ x) = (s.place p, s) :: visible (p.after s.text) x := by
  obtain ⟨hblank, -, hopen⟩ := shape_of_isProper hs
  have hplace : InPlace s x := h.of_breaks (by simp [hblank, hopen]) List.nil_prefix hx
  exact hplace.visible_append hblank p

/-- Segments that stand for tokens are found again between gaps. -/
theorem visible_spaced {ss : List Segment}
    (h : ∀ s ∈ ss, (∃ rest, InPlace s rest) ∧ s.isProper = true) (gaps : Nat → Gap) (p : Place) :
    (visible p (spaced gaps (ss.map text))).map Prod.snd = ss := by
  induction ss generalizing gaps p with
  | nil => rw [List.map_nil, spaced, visible_nil, List.map_nil]
  | cons s ss ih =>
    obtain ⟨⟨⟨rest, hplace⟩, hs⟩, h⟩ := List.forall_mem_cons.1 h
    cases ss with
    | nil =>
      have hlast := hplace.visible_append_of_breaks hs (breaks_nil s.shape) p
      rw [List.append_nil, visible_nil] at hlast
      rw [List.map_singleton, spaced, hlast, List.map_singleton]
    | cons s' ss =>
      obtain ⟨-, hcomment, -⟩ := shape_of_isProper hs
      rw [List.map_cons, List.map_cons, spaced, List.append_assoc,
        hplace.visible_append_of_breaks hs ((gaps 0).breaks hcomment _),
        visible_append_of_blanks (gaps 0).blank, List.map_cons]
      exact congrArg (s :: ·) (ih h _ _)

end Segment

/-! ### Scans -/

theorem map_content_ofText (p : Place) (cs : List Char) :
    (Scan.ofText p cs).tokens.body.map Token.content =
      ((visible p cs).map Prod.snd).filterMap content? := by
  rw [Scan.body_ofText, List.map_filterMap, List.filterMap_map]
  exact List.filterMap_congr fun x _ => map_content_token? x.1.position x.2

theorem map_content_scan (source : String) :
    (scan source).tokens.body.map Token.content = (segments source.toList).filterMap content? :=
  map_filterMap_placed map_content_token? Place.start _

theorem kind_ne_eof_of_mem_body_scan {source : String} {t : Token}
    (ht : t ∈ (scan source).tokens.body) : t.kind ≠ .eof := by
  have hmem := List.mem_map_of_mem (f := fun t => (t.kind, t.lexeme)) ht
  rw [body_scan, List.mem_filterMap] at hmem
  obtain ⟨s, hs, hkind⟩ := hmem
  obtain ⟨rest, hplace⟩ := (segmentation_segments source.toList).inPlace s hs
  obtain ⟨k, hk, hpair⟩ := Option.map_eq_some_iff.1 hkind
  obtain ⟨rfl, -⟩ := Prod.mk.inj hpair
  exact fun heof => hplace.kind?_ne_eof (hk.trans (congrArg some heof))

theorem proper_scan (source : String) :
    (scan source).tokens.proper = (scan source).tokens.body := by
  have hbody : (scan source).tokens.body.filter (·.kind ≠ .eof) = (scan source).tokens.body :=
    List.filter_eq_self.2 fun t ht => by simpa using kind_ne_eof_of_mem_body_scan ht
  rw [TokenStream.proper, TokenStream.toList, List.filter_append, hbody,
    List.filter_cons_of_neg (by simp [TokenStream.last_kind]), List.filter_nil, List.append_nil]

/-- The lexemes of a source with any gaps between them give the same tokens again, and nothing is
reported. -/
theorem scan_spaced (source : String) (gaps : Nat → Gap) :
    let lexemes := (scan source).tokens.proper.map (·.lexeme.toList)
    let again := scan (String.ofList (spaced gaps lexemes))
    again.diagnostics = [] ∧
      again.tokens.proper.map Token.content = (scan source).tokens.proper.map Token.content := by
  intro lexemes again
  have hseg := segmentation_segments source.toList
  let ss := (segments source.toList).filter isProper
  have hss : ∀ s ∈ ss, (∃ rest, InPlace s rest) ∧ s.isProper = true := by
    intro s hs
    obtain ⟨hs, hproper⟩ := List.mem_filter.1 hs
    exact ⟨hseg.inPlace s hs, hproper⟩
  have hlexemes : lexemes = ss.map text := by
    show (scan source).tokens.proper.map (·.lexeme.toList) = _
    rw [proper_scan, ← map_lexeme_filterMap_content?, ← map_content_scan, List.map_map]
    rfl
  have hagain : again = Scan.ofText .start (spaced gaps (ss.map text)) := by
    show Scan.ofText .start (String.ofList (spaced gaps lexemes)).toList = _
    rw [String.toList_ofList, hlexemes]
  have hvisible := visible_spaced hss gaps .start
  constructor
  · rw [hagain, Scan.diagnostics_ofText, List.filterMap_eq_nil_iff]
    intro x hx
    have hmem := List.mem_map_of_mem (f := Prod.snd) hx
    rw [hvisible] at hmem
    exact diagnostic?_eq_none (hss x.2 hmem).2 x.1.position
  · have hproper : again.tokens.proper = again.tokens.body := proper_scan _
    rw [hproper, hagain, map_content_ofText, hvisible, proper_scan, map_content_scan,
      filterMap_content?]

end Lox

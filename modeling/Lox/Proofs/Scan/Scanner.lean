import Lox.Proofs.Scan.Pattern
import Lox.Proofs.Scan.Spacing

/-!
# The scanner reads every source

The offsets of the scanner can be told from the text it has read: they are the lengths of that text,
of the text in front of the last lexeme, and of all complete lines (`Scanner.At`).  So they are
boundaries of characters, and every slice that a step takes can be taken.  A step reads the segment
that stands in front (`Scanner.At.step?`), and a run reads them all.  The key fact: the scanner
never stops on the way, comes to the end of every source, and collects there what `scan` gives
(`Scanner.run_to_end`).
-/

namespace Lox

namespace Text

/-! ### Searching -/

theorem find?_eq_none {c : Char} {cs : List Char} (h : c ∉ cs) : find? c cs = none := by
  induction cs with
  | nil => rfl
  | cons d cs ih =>
    rw [List.mem_cons, not_or] at h
    rw [find?, if_neg (Ne.symm h.1), ih h.2, Option.map_none]

theorem find?_append {c : Char} {pre : List Char} (h : c ∉ pre) (rest : List Char) :
    find? c (pre ++ c :: rest) = some (byteLength pre) := by
  induction pre with
  | nil => simp [find?, byteLength]
  | cons d pre ih =>
    rw [List.mem_cons, not_or] at h
    rw [List.cons_append, find?, if_neg (Ne.symm h.1), ih h.2]
    rfl

/-- The text up to the last newline. -/
def firstLines (cs : List Char) : List Char :=
  cs.rdropWhile (· ≠ '\n')

theorem firstLines_append_lastLine (cs : List Char) : firstLines cs ++ lastLine cs = cs :=
  List.rdropWhile_append_rtakeWhile

theorem firstLines_append_of_not_mem {ds : List Char} (h : '\n' ∉ ds) (cs : List Char) :
    firstLines (cs ++ ds) = firstLines cs := by
  have hall := firstLines_append_lastLine (cs ++ ds)
  rw [lastLine_append_of_not_mem h, ← List.append_assoc] at hall
  exact List.append_cancel_right
    ((List.append_cancel_right hall).trans (firstLines_append_lastLine cs).symm)

theorem firstLines_append_of_mem {ds : List Char} (h : '\n' ∈ ds) (cs : List Char) :
    firstLines (cs ++ ds) = cs ++ firstLines ds := by
  have hall := firstLines_append_lastLine (cs ++ ds)
  have hds := congrArg (cs ++ ·) (firstLines_append_lastLine ds)
  rw [lastLine_append_of_mem h] at hall
  exact List.append_cancel_right (hall.trans (hds.symm.trans (List.append_assoc ..).symm))

theorem rfind?_newline (cs : List Char) : (rfind? '\n' cs).map (· + 1) =
    if '\n' ∈ cs then some (byteLength (firstLines cs)) else none := by
  induction cs with
  | nil => rfl
  | cons c cs ih =>
    rw [rfind?]
    by_cases h : '\n' ∈ cs
    · rw [if_pos h] at ih
      obtain ⟨offset, hoffset, hlast⟩ := Option.map_eq_some_iff.1 ih
      have hlines : firstLines (c :: cs) = c :: firstLines cs := firstLines_append_of_mem h [c]
      rw [hoffset, if_pos (List.mem_cons_of_mem c h), hlines, byteLength, ← hlast]
      rfl
    · rw [if_neg h, Option.map_eq_none_iff] at ih
      have hlines : firstLines (c :: cs) = firstLines [c] := firstLines_append_of_not_mem h [c]
      rw [ih, hlines]
      by_cases hc : c = '\n'
      · subst hc
        rfl
      · simp [hc, Ne.symm hc, h]

end Text

/-! ### Where the scanner stands -/

namespace Scanner

open Segment Text

/-- The scanner has read `before ++ w`, the lexeme `w` last, and `rest` is left.  A sum has too many
bits only where it may wrap around. -/
structure At (s : Scanner) (before w rest : List Char) : Prop where
  source : s.source = before ++ w ++ rest
  pos : s.pos = byteLength (before ++ w)
  start : s.start = byteLength before
  line : s.line = (1 + (before ++ w).count '\n' : Nat)
  lineStart : s.lineStart = byteLength (firstLines (before ++ w))
  fits : s.overflow = .wraps ∨ Text.Fits s.source

variable {s : Scanner} {before w rest : List Char}

theorem slice?_of_source (h : s.source = before ++ w ++ rest) :
    s.slice? (byteLength before) (byteLength (before ++ w)) = some w :=
  slice?_eq_some_iff.2 ⟨before, rest, h, rfl, rfl⟩

theorem At.remainder? (h : s.At before w rest) : s.remainder? = some rest := by
  have hsource : s.source = before ++ w ++ rest ++ [] := by rw [h.source, List.append_nil]
  have hslice := slice?_of_source hsource
  rwa [← h.source, ← h.pos] at hslice

/-- At the beginning of a step. -/
theorem At.begin (h : s.At before w rest) : At { s with start := s.pos } (before ++ w) [] rest := by
  have hall : before ++ w ++ [] = before ++ w := List.append_nil _
  refine ⟨?_, ?_, h.pos, ?_, ?_, h.fits⟩
  all_goals rw [hall]
  · exact h.source
  · exact h.pos
  · exact h.line
  · exact h.lineStart

theorem At.column? (h : s.At before w rest) :
    s.column? = some (Place.ofLexeme before w).position.column := by
  unfold Scanner.column? Place.ofLexeme
  rw [h.start, h.lineStart]
  by_cases hw : '\n' ∈ w
  · have hne : firstLines w ≠ [] := fun hnil => by
      simpa using List.rdropWhile_eq_nil_iff.1 hnil '\n' hw
    have hpos := Nat.pos_of_ne_zero (mt byteLength_eq_zero_iff.1 hne)
    rw [firstLines_append_of_mem hw, byteLength_append, if_pos (by omega), if_pos hw]
    rfl
  · have hlines := firstLines_append_lastLine before
    have hle : byteLength (firstLines before) ≤ byteLength before := by
      rw [← congrArg byteLength hlines, byteLength_append]
      omega
    have hslice : s.slice? (byteLength (firstLines before)) (byteLength before) =
        some (lastLine before) := by
      have hsource : s.source = firstLines before ++ lastLine before ++ (w ++ rest) := by
        rw [hlines, h.source, List.append_assoc]
      rw [← slice?_of_source hsource, hlines]
    have hsum : s.overflow = .wraps ∨ (lastLine before).length + 1 < UInt32.size :=
      h.fits.imp_right fun hfits => by
        have hcolumn := (h.source ▸ hfits).ofLexeme.column
        simp only [Place.ofLexeme, if_neg hw] at hcolumn
        omega
    rw [firstLines_append_of_not_mem hw, if_neg (by omega), hslice, if_neg hw,
      Nat.add_comm 1 (lastLine before).length]
    exact Overflow.add?_of_lt hsum

theorem At.position_eq (h : s.At before w rest) :
    ⟨s.line, (Place.ofLexeme before w).position.column⟩ = (Place.ofLexeme before w).position :=
  congrArg (Position.mk · _) h.line

theorem At.report? (h : s.At before w rest) (cause : Cause) : s.report? cause =
    some { s with
      diagnostics := s.diagnostics ++ [.atPosition cause (Place.ofLexeme before w).position] } := by
  simp only [Scanner.report?, h.column?, h.position_eq, Option.bind_eq_bind, Option.bind_some]

/-- The scanner on the line on which `before` ends. -/
def onLine (s : Scanner) (before : List Char) : Scanner :=
  { s with
    line := (1 + before.count '\n' : Nat)
    lineStart := byteLength (firstLines before) }

/-- The lines are counted up to the end of a piece of the source. -/
theorem trackLines?_eq (hsource : s.source = before ++ w ++ rest)
    (hline : s.line = (1 + before.count '\n' : Nat))
    (hlineStart : s.lineStart = byteLength (firstLines before))
    (hfits : s.overflow = .wraps ∨ Text.Fits s.source) :
    s.trackLines? (byteLength before) (byteLength (before ++ w)) =
      some (s.onLine (before ++ w)) := by
  have hlast := rfind?_newline w
  unfold trackLines? onLine
  rw [slice?_of_source hsource, Option.bind_eq_bind, Option.bind_some]
  by_cases hw : '\n' ∈ w
  · rw [if_pos hw] at hlast
    obtain ⟨last, hfind, hlast⟩ := Option.map_eq_some_iff.1 hlast
    have hsum : s.overflow = .wraps ∨ 1 + before.count '\n' + w.count '\n' < UInt32.size :=
      hfits.imp_right fun hfits => by
        have hline := (hsource ▸ hfits).ofLexeme.line
        simp only [Place.ofLexeme, List.count_append] at hline
        omega
    rw [hfind, firstLines_append_of_mem hw, byteLength_append, ← hlast, hline, List.count_append]
    simp only [Overflow.add?_of_lt hsum, Option.bind_eq_bind, Option.bind_some, Nat.add_assoc]
  · rw [if_neg hw, Option.map_eq_none_iff] at hlast
    have hcount : (before ++ w).count '\n' = before.count '\n' := by
      rw [List.count_append, List.count_eq_zero_of_not_mem hw, Nat.add_zero]
    rw [hlast, firstLines_append_of_not_mem hw, ← hlineStart, hcount, ← hline]

/-! ### One step -/

/-- The scanner behind the lexeme `w`, which follows `before`. -/
def behind (s : Scanner) (before w : List Char) : Scanner :=
  { s.onLine (before ++ w) with
    pos := byteLength (before ++ w)
    start := byteLength before }

/-- The scanner that has noted what the segment at the position `p` stands for. -/
def note (s : Scanner) (p : Position) (seg : Segment) : Scanner :=
  { s with
    tokens := s.tokens ++ (seg.token? p).toList
    diagnostics := s.diagnostics ++ (seg.diagnostic? p).toList }

/-- The scanner that has read the segment behind `before`. -/
def read (s : Scanner) (before : List Char) (seg : Segment) : Scanner :=
  (s.behind before seg.text).note (seg.placeIn before).position seg

theorem At.behind (h : s.At before [] (w ++ rest)) : (s.behind before w).At before w rest := by
  refine ⟨?_, rfl, rfl, rfl, rfl, h.fits⟩
  rw [List.append_assoc]
  exact h.source.trans (by rw [List.append_nil])

theorem At.read {seg : Segment} (h : s.At before w (seg.text ++ rest)) :
    (s.read (before ++ w) seg).At (before ++ w) seg.text rest :=
  ⟨h.source.trans (List.append_assoc ..).symm, rfl, rfl, rfl, rfl, h.fits⟩

/-- Where no newline is read, only the offset changes. -/
theorem At.advance_eq (h : s.At before [] (w ++ rest)) (hw : '\n' ∉ w) :
    s.advance (byteLength w) = s.behind before w := by
  have hline : s.line = (1 + (before ++ w).count '\n' : Nat) := by
    rw [h.line, List.append_nil, List.count_append, List.count_eq_zero_of_not_mem hw, Nat.add_zero]
  have hlineStart : s.lineStart = byteLength (firstLines (before ++ w)) := by
    rw [h.lineStart, List.append_nil, firstLines_append_of_not_mem hw]
  have hpos : s.pos + byteLength w = byteLength (before ++ w) := by
    rw [h.pos, List.append_nil, byteLength_append]
  exact Scanner.ext rfl rfl hpos h.start hline hlineStart rfl rfl

theorem At.blank (h : s.At before [] (w ++ rest)) :
    s.handle? (byteLength w) .blank = some (s.behind before w) := by
  have hstop : s.pos + byteLength w = byteLength (before ++ w) := by
    rw [h.pos, List.append_nil, byteLength_append]
  have hsource : s.source = before ++ w ++ rest := h.behind.source
  have htrack := trackLines?_eq hsource (by simpa using h.line) (by simpa using h.lineStart)
    h.fits
  rw [handle?, hstop, h.pos, List.append_nil, htrack, Option.map_some, advance]
  exact congrArg some (Scanner.ext rfl rfl hstop h.start rfl rfl rfl rfl)

variable {seg : Segment}

/-- A lexeme on a single line is placed where it begins. -/
theorem At.push_advance (h : s.At before [] (seg.text ++ rest)) (hw : '\n' ∉ seg.text)
    {t : Token} (ht : seg.token? (Place.ofLexeme before []).position = some t)
    (hd : seg.diagnostic? (Place.ofLexeme before []).position = none) :
    (s.advance (byteLength seg.text)).push t = s.read before seg := by
  have hplace : seg.placeIn before = .ofLexeme before [] := Place.ofLexeme_of_not_mem hw before
  rw [h.advance_eq hw, Scanner.read, note, hplace, ht, hd, Option.toList_none, List.append_nil]
  rfl

theorem At.read? (h : s.At before [] (w ++ rest)) (token : Position → List Char → Token) :
    s.read? (byteLength w) token =
      some ((s.advance (byteLength w)).push (token (Place.ofLexeme before []).position w)) := by
  have hslice : Text.slice? 0 (byteLength w) (w ++ rest) = some w :=
    Text.slice?_eq_some_iff.2 ⟨[], rest, rfl, rfl, rfl⟩
  have hline : (s.advance (byteLength w)).line = s.line := rfl
  simp only [Scanner.read?, h.remainder?, hslice, h.column?, hline, h.position_eq,
    Option.bind_eq_bind, Option.bind_some]

theorem At.readSymbol? (h : s.At before [] rest) (kind : TokenKind) (w : List Char) :
    s.readSymbol? kind w =
      some ((s.advance (byteLength w)).push
        ⟨(Place.ofLexeme before []).position, kind, .ofList w, none⟩) := by
  have hline : (s.advance (byteLength w)).line = s.line := rfl
  simp only [Scanner.readSymbol?, h.column?, hline, h.position_eq, Option.bind_eq_bind,
    Option.bind_some]

/-- The offsets of a string: its first character is a byte long. -/
theorem At.pos_succ (h : s.At before [] rest) : s.pos + 1 = byteLength (before ++ ['"']) := by
  rw [h.pos, List.append_nil, byteLength_append]
  rfl

/-- The lines are counted between the quotes. -/
theorem At.trackLines_string (h : s.At before [] ('"' :: w ++ rest)) :
    s.trackLines? (byteLength (before ++ ['"'])) (byteLength (before ++ '"' :: w)) =
      some (s.onLine (before ++ '"' :: w)) := by
  have hsource : s.source = before ++ ['"'] ++ w ++ rest := by simpa using h.source
  have hline : s.line = (1 + (before ++ ['"']).count '\n' : Nat) := by simpa using h.line
  have hlineStart : s.lineStart = byteLength (firstLines (before ++ ['"'])) := by
    rw [firstLines_append_of_not_mem (by decide), h.lineStart, List.append_nil]
  have htrack := trackLines?_eq hsource hline hlineStart h.fits
  rwa [List.append_assoc, List.singleton_append] at htrack

theorem At.slice?_string (h : s.At before [] ('"' :: w ++ rest)) :
    s.slice? (byteLength (before ++ ['"'])) (byteLength (before ++ '"' :: w)) = some w := by
  have hsource : s.source = before ++ ['"'] ++ w ++ rest := by simpa using h.source
  have hslice := slice?_of_source hsource
  rwa [List.append_assoc, List.singleton_append] at hslice

/-- The closing quote stands on the same line. -/
theorem onLine_append_quote (s : Scanner) (before w : List Char) :
    s.onLine (before ++ (w ++ ['"'])) = s.onLine (before ++ w) := by
  have hquote : '\n' ∉ ['"'] := by decide
  unfold onLine
  rw [← List.append_assoc, firstLines_append_of_not_mem hquote, List.count_append,
    List.count_eq_zero_of_not_mem hquote, Nat.add_zero]

theorem At.readString?_closed (hbody : '"' ∉ w) (h : s.At before [] ('"' :: w ++ ['"'] ++ rest)) :
    s.readString? = some (s.read before ⟨.string, '"' :: w ++ ['"']⟩) := by
  have hvalue : s.At before [] ('"' :: w ++ '"' :: rest) := by simpa using h
  have hall : s.At before [] ('"' :: (w ++ '"' :: rest) ++ []) := by simpa using h
  have hsize : s.size = byteLength (before ++ '"' :: (w ++ '"' :: rest)) := by
    rw [size, hvalue.source, List.append_nil]
    rfl
  have hstop : byteLength (before ++ ['"']) + byteLength w = byteLength (before ++ '"' :: w) := by
    rw [← byteLength_append, List.append_assoc, List.singleton_append]
  have hend : byteLength (before ++ '"' :: w) + 1 =
      byteLength (before ++ ('"' :: w ++ ['"'])) := by
    rw [← List.append_assoc, byteLength_append _ ['"']]
    rfl
  have hlexeme : s.slice? s.pos (byteLength (before ++ ('"' :: w ++ ['"']))) =
      some ('"' :: w ++ ['"']) := by
    rw [h.pos, List.append_nil]
    exact slice?_of_source h.behind.source
  have hbehind : { s.onLine (before ++ '"' :: w) with
      pos := byteLength (before ++ ('"' :: w ++ ['"'])) } = s.behind before ('"' :: w ++ ['"']) := by
    rw [Scanner.behind, onLine_append_quote]
    exact Scanner.ext rfl rfl rfl h.start rfl rfl rfl rfl
  have hplace : ⟨(s.onLine (before ++ '"' :: w)).line,
      (Place.ofLexeme before ('"' :: w ++ ['"'])).position.column⟩ =
        (Place.ofLexeme before ('"' :: w ++ ['"'])).position := by
    rw [← onLine_append_quote]
    rfl
  simp only [Scanner.readString?, h.pos_succ, hsize, hall.slice?_string, find?_append hbody, hstop,
    hend, hvalue.slice?_string, hlexeme, hvalue.trackLines_string, Option.bind_eq_bind,
    Option.bind_some, hbehind, h.behind.column?, hplace]
  simp [Scanner.read, note, token?, diagnostic?, placeIn, Segment.lexeme, push]

theorem At.readString?_open (hbody : '"' ∉ w) (h : s.At before [] ('"' :: w)) :
    s.readString? = some (s.read before ⟨.openString, '"' :: w⟩) := by
  have hall : s.At before [] ('"' :: w ++ []) := by simpa using h
  have hsize : s.size = byteLength (before ++ '"' :: w) := by
    rw [size, h.source, List.append_nil]
  let t := s.onLine (before ++ '"' :: w)
  have hbehind : { t with pos := t.size } = s.behind before ('"' :: w) :=
    Scanner.ext rfl rfl hsize h.start rfl rfl rfl rfl
  have htrack : s.trackLines? (byteLength (before ++ ['"'])) (byteLength (before ++ '"' :: w)) =
      some t := hall.trackLines_string
  simp only [Scanner.readString?, h.pos_succ, hsize, hall.slice?_string, find?_eq_none hbody,
    htrack, Option.bind_eq_bind, Option.bind_some, hbehind, hall.behind.report?]
  simp [Scanner.read, note, token?, diagnostic?, placeIn]

/-- The handler of the pattern for a segment reads the segment. -/
theorem At.handle? {handler : Handler} {front : List Char}
    (h : s.At before [] (seg.text ++ rest)) (hseg : InPlace seg rest)
    (hfront : Handler.ofSegment? seg = some (handler, front)) :
    s.handle? (byteLength front) handler = some (s.read before seg) := by
  have hline := hseg.newline_not_mem
  obtain ⟨shape, w⟩ := seg
  cases shape with
  | blank =>
    cases hfront
    rw [h.blank]
    simp [Scanner.read, note, token?, diagnostic?]
  | comment =>
    cases hfront
    rw [Scanner.handle?, h.advance_eq (hline (by simp))]
    simp [Scanner.read, note, token?, diagnostic?]
  | number | word =>
    cases hfront
    rw [Scanner.handle?, h.read?]
    exact congrArg some (h.push_advance (hline (by simp)) rfl rfl)
  | symbol kind =>
    cases hfront
    rw [Scanner.handle?, h.readSymbol?]
    exact congrArg some (h.push_advance (hline (by simp)) rfl rfl)
  | string =>
    cases hfront
    cases hseg with
    | lexeme hlongest =>
      cases hlongest.lexeme with
      | string hbody => exact h.readString?_closed hbody
  | openString =>
    cases hfront
    cases hseg with
    | lexeme hlongest => cases hlongest.lexeme
    | openString hbody => exact At.readString?_open hbody (by simpa using h)
  | stray => cases hfront

/-- Only a stray character has no pattern. -/
theorem exists_eq_stray (hseg : InPlace seg rest) (hfront : Handler.ofSegment? seg = none) :
    ∃ c, seg = ⟨.stray, [c]⟩ := by
  cases hseg with
  | lexeme hlongest => cases hlongest.lexeme <;> cases hfront
  | stray => exact ⟨_, rfl⟩
  | openString => cases hfront

/-- A character that is passed over is reported where it stands. -/
theorem At.report?_stray {c : Char} (h : s.At before [] (c :: rest)) (hc : c ≠ '\n') :
    (s.advance c.utf8Size).report? (.unexpectedCharacter c) =
      some (s.read before ⟨.stray, [c]⟩) := by
  have hadvance : s.advance c.utf8Size = s.behind before [c] :=
    At.advance_eq (w := [c]) h (by simpa using Ne.symm hc)
  have hat : (s.behind before [c]).At before [c] rest := At.behind h
  rw [hadvance, hat.report?]
  simp [Scanner.read, note, token?, diagnostic?, placeIn]

/-- A step reads the segment in front. -/
theorem At.step? (h : s.At before w (seg.text ++ rest)) (hseg : InPlace seg rest) :
    s.step? = some (s.read (before ++ w) seg) := by
  have hstart := h.begin
  obtain ⟨c, cs, hcs⟩ := List.exists_cons_of_ne_nil
    (List.append_ne_nil_of_left_ne_nil hseg.text_ne_nil rest)
  have hchoose : Handler.choose? (seg.text ++ rest) = Handler.ofSegment? seg := by
    rw [hcs, Handler.choose?_cons, ← hseg.eq_cut hcs]
  simp only [Scanner.step?, hstart.remainder?, hchoose, Option.bind_eq_bind, Option.bind_some]
  cases hfront : Handler.ofSegment? seg with
  | some front => exact hstart.handle? hseg hfront
  | none =>
    obtain ⟨c, rfl⟩ := exists_eq_stray hseg hfront
    have hc : c ≠ '\n' := fun hc => hseg.newline_not_mem (by simp) (by simp [hc])
    simp only [at?, hstart.remainder?, Option.map_some, Option.bind_some]
    exact hstart.report?_stray hc

/-! ### Runs -/

theorem At.atEnd_iff (h : s.At before w rest) : s.atEnd = true ↔ rest = [] := by
  have hsize : s.size = byteLength (before ++ w) + byteLength rest := by
    rw [size, h.source, byteLength_append]
  rw [atEnd, decide_eq_true_iff, hsize, h.pos, ← byteLength_eq_zero_iff]
  omega

/-- A run to the end reads all segments. -/
theorem At.exists_steps {ss : List Segment} (hss : Segmentation rest ss)
    (h : s.At before w rest) : ∃ n t before' w', Steps n s t ∧ t.At before' w' [] ∧
      before' ++ w' = before ++ w ++ rest ∧
      t.tokens = s.tokens ++
        (spans (before ++ w) ss).filterMap (fun (b, seg) =>
          seg.token? (seg.placeIn b).position) ∧
      t.diagnostics = s.diagnostics ++
        (spans (before ++ w) ss).filterMap (fun (b, seg) =>
          seg.diagnostic? (seg.placeIn b).position) := by
  induction hss generalizing s before w with
  | nil => exact ⟨0, s, before, w, .zero s, h, by simp, by simp [spans], by simp [spans]⟩
  | @cons seg rest ss hseg _ ih =>
    have hend : s.atEnd = false := by
      rw [← Bool.not_eq_true, h.atEnd_iff]
      exact List.append_ne_nil_of_left_ne_nil hseg.text_ne_nil rest
    obtain ⟨n, t, before', w', hsteps, hat, hall, htokens, hdiagnostics⟩ := ih h.read
    refine ⟨n + 1, t, before', w', .succ hend (h.step? hseg) hsteps, hat, by simpa using hall,
      ?_, ?_⟩
    · rw [htokens, filterMap_spans_cons fun b seg => seg.token? (seg.placeIn b).position,
        ← List.append_assoc]
      rfl
    · rw [hdiagnostics, filterMap_spans_cons fun b seg => seg.diagnostic? (seg.placeIn b).position,
        ← List.append_assoc]
      rfl

theorem Steps.unique {m n : Nat} {t u : Scanner} (h : Steps m s t) (ht : t.atEnd = true)
    (h' : Steps n s u) (hu : u.atEnd = true) : m = n ∧ t = u := by
  induction h generalizing n with
  | zero =>
    cases h' with
    | zero => exact ⟨rfl, rfl⟩
    | succ hs => rw [ht] at hs; cases hs
  | succ hs hstep _ ih =>
    cases h' with
    | zero => rw [hu] at hs; cases hs
    | succ _ hstep' h' =>
      cases hstep.symm.trans hstep'
      obtain ⟨rfl, rfl⟩ := ih ht h'
      exact ⟨rfl, rfl⟩

/-! ### Boundaries -/

theorem at_ofSource {overflow : Overflow} {source : String}
    (h : overflow = .wraps ∨ Text.Fits source.toList) :
    (ofSource overflow source).At [] [] source.toList :=
  ⟨rfl, rfl, rfl, rfl, rfl, h⟩

theorem At.finish? (h : s.At before w rest) : s.finish? =
    some { s with
      start := s.pos
      tokens := s.tokens ++ [⟨(Place.ofLexeme (before ++ w) []).position, .eof, "", none⟩] } := by
  have hplace : ⟨s.line, (Place.ofLexeme (before ++ w) []).position.column⟩ =
      (Place.ofLexeme (before ++ w) []).position := h.begin.position_eq
  simp only [Scanner.finish?, h.begin.column?, hplace, Option.bind_eq_bind, Option.bind_some]
  rfl

/-- The run over a source to its end, and what has been collected there. -/
theorem exists_run {overflow : Overflow} {source : String}
    (h : overflow = .wraps ∨ Text.Fits source.toList) : ∃ n s t,
    Steps n (ofSource overflow source) s ∧ s.atEnd = true ∧ s.finish? = some t ∧
      t.tokens = (scan source).tokens.toList ∧ t.diagnostics = (scan source).diagnostics := by
  obtain ⟨n, s, before, w, hsteps, hat, hall, htokens, hdiagnostics⟩ :=
    (at_ofSource h).exists_steps (segmentation_segments source.toList)
  refine ⟨n, s, _, hsteps, hat.atEnd_iff.2 rfl, hat.finish?, ?_, ?_⟩
  · rw [hall, htokens, TokenStream.toList, body_scan_spans, last_scan]
    rfl
  · rw [diagnostics_scan_spans]
    exact hdiagnostics

end Scanner

end Lox

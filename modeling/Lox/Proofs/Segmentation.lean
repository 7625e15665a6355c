import Lox.Scan
import Lox.Proofs.Lexeme

/-!
# Segmentations

A segmentation takes a text apart, without gaps and in order, into longest lexemes, single
characters no lexeme starts with, and at the end perhaps a string that is never closed.  The key
fact: every text has exactly one (`segmentation_iff`), and the tokens and diagnostics of a scan can
be read off it (`scan_exact`).
-/

namespace Lox

namespace Segment

/-- A lexeme in front of `rest` such that none that starts at the same place is longer. -/
structure Longest (shape : Shape) (w rest : List Char) : Prop where
  lexeme : Lexeme shape w
  length_le {shape' : Shape} {w' : List Char} (h : Lexeme shape' w') (hp : w' <+: w ++ rest) :
    w'.length ≤ w.length

/-- What may be cut off in front of a rest. -/
inductive InPlace : Segment → List Char → Prop
  | lexeme {shape w rest} (h : Longest shape w rest) : InPlace ⟨shape, w⟩ rest
  | stray {c rest} (hc : c ≠ '"') (h : ∀ shape w, Lexeme shape w → ¬w <+: c :: rest) :
      InPlace ⟨.stray, [c]⟩ rest
  | openString {w} (h : '"' ∉ w) : InPlace ⟨.openString, '"' :: w⟩ []

inductive Segmentation : List Char → List Segment → Prop
  | nil : Segmentation [] []
  | cons {s rest ss} (h : InPlace s rest) (hss : Segmentation rest ss) :
      Segmentation (s.text ++ rest) (s :: ss)

/-! ### There is exactly one -/

theorem inPlace_cut (c : Char) (cs : List Char) :
    InPlace ⟨(cut c cs).1, c :: cs.take (cut c cs).2⟩ (cs.drop (cut c cs).2) := by
  have hlen := cut_le_length c cs
  have hall : c :: cs.take (cut c cs).2 ++ cs.drop (cut c cs).2 = c :: cs := by simp
  rcases cut_cases c cs with h | ⟨rfl, hcs, hcut⟩ | ⟨hc, hcut⟩
  · refine .lexeme ⟨h, fun h' hp => ?_⟩
    rw [hall] at hp
    rw [List.length_cons, List.length_take_of_le hlen]
    exact (h'.fits hp).length_le
  · rw [hcut, List.take_length, List.drop_length]
    exact .openString hcs
  · rw [hcut]
    refine .stray hc fun shape w h hp => ?_
    have hfits : Fits shape w (cut c cs) := h.fits hp
    exact hfits.ne_stray (by rw [hcut])

theorem InPlace.eq_cut {s : Segment} {rest : List Char} (h : InPlace s rest) {c : Char}
    {cs : List Char} (hcs : s.text ++ rest = c :: cs) :
    s = ⟨(cut c cs).1, c :: cs.take (cut c cs).2⟩ := by
  have hlen := cut_le_length c cs
  cases h with
  | @lexeme shape w _ h =>
    have hp : w <+: c :: cs := hcs ▸ List.prefix_append w rest
    have hfits := h.lexeme.fits hp
    obtain hcut | ⟨-, -, hcut⟩ | ⟨-, hcut⟩ := cut_cases c cs
    · have hp' : c :: cs.take (cut c cs).2 <+: c :: cs :=
        List.cons_prefix_cons.2 ⟨rfl, List.take_prefix _ cs⟩
      have hle := h.length_le hcut (hcs ▸ hp')
      have hle' := hfits.length_le
      have htake : (c :: cs.take (cut c cs).2).length = (cut c cs).2 + 1 := by
        rw [List.length_cons, List.length_take_of_le hlen]
      -- both are longest, so they are equally long
      have hw : w = c :: cs.take (cut c cs).2 := by
        refine (List.prefix_of_prefix_length_le hp hp' ?_).eq_of_length ?_ <;> omega
      rw [hfits.shape_eq (hw ▸ htake), hw]
    · exact absurd (by rw [hcut]) hfits.ne_openString
    · exact absurd (by rw [hcut]) hfits.ne_stray
  | @stray d rest hc h =>
    change d :: rest = c :: cs at hcs
    obtain ⟨rfl, rfl⟩ := List.cons.inj hcs
    obtain hcut | ⟨rfl, -⟩ | ⟨-, hcut⟩ := cut_cases d rest
    · exact absurd (List.cons_prefix_cons.2 ⟨rfl, List.take_prefix _ rest⟩) (h _ _ hcut)
    · exact absurd rfl hc
    · rw [hcut, List.take_zero]
  | @openString w h =>
    rw [List.append_nil] at hcs
    cases hcs
    rw [cut_of_open_quote h, List.take_length]

theorem InPlace.text_ne_nil {s : Segment} {rest : List Char} (h : InPlace s rest) : s.text ≠ [] := by
  cases h with
  | lexeme h => exact h.lexeme.ne_nil
  | stray | openString => exact List.cons_ne_nil _ _

theorem segmentation_segments (cs : List Char) : Segmentation cs (segments cs) := by
  fun_induction segments cs with
  | case1 => exact .nil
  | case2 c cs ih =>
    have h := Segmentation.cons (inPlace_cut c cs) ih
    rwa [List.cons_append, List.take_append_drop] at h

theorem segmentation_iff {cs : List Char} {ss : List Segment} :
    Segmentation cs ss ↔ ss = segments cs := by
  constructor
  · intro h
    induction h with
    | nil => rw [segments_nil]
    | @cons s rest ss h _ ih =>
      obtain ⟨c, cs, hcs⟩ := List.exists_cons_of_ne_nil
        (List.append_ne_nil_of_left_ne_nil h.text_ne_nil rest)
      have hs := h.eq_cut hcs
      have hrest : rest = cs.drop (cut c cs).2 := by
        rw [hs, List.cons_append, List.cons.injEq] at hcs
        exact List.append_cancel_left (hcs.2.trans (List.take_append_drop _ cs).symm)
      rw [hcs, segments_cons, ← hs, ← hrest, ih]
  · rintro rfl
    exact segmentation_segments cs

theorem InPlace.rest_eq_nil {s : Segment} {rest : List Char} (h : InPlace s rest)
    (hs : s.shape = .openString) : rest = [] := by
  cases h with
  | lexeme h =>
    obtain rfl := hs
    cases h.lexeme
  | stray => cases hs
  | openString => rfl

/-- Nothing follows a string that is never closed. -/
theorem Segmentation.shape_ne_openString {cs : List Char} {ss : List Segment}
    (h : Segmentation cs ss) : ∀ s ∈ ss.dropLast, s.shape ≠ .openString := by
  induction h with
  | nil => simp
  | @cons s rest ss hs hss ih =>
    cases hss with
    | nil => simp
    | cons h' hss' =>
      rw [List.dropLast_cons_cons, List.forall_mem_cons]
      refine ⟨fun hopen => ?_, ih⟩
      exact h'.text_ne_nil (List.append_eq_nil_iff.1 (hs.rest_eq_nil hopen)).1

/-! ### What a segment stands for -/

/-- The kind of the token a segment stands for. -/
def kind? (s : Segment) : Option TokenKind :=
  match s.shape with
  | .number => some .number
  | .word => some ((TokenKind.keyword? s.lexeme).getD .identifier)
  | .string => some .string
  | .symbol kind => some kind
  | .blank | .comment | .openString | .stray => none

/-- The cause of the error a segment is reported for. -/
def cause? (s : Segment) : Option Cause :=
  match s.shape, s.text with
  | .stray, c :: _ => some (.unexpectedCharacter c)
  | .openString, _ => some .unterminatedString
  | _, _ => none

theorem map_token? (p : Position) (s : Segment) :
    (s.token? p).map (fun t => (t.kind, t.lexeme)) = s.kind?.map (·, s.lexeme) := by
  obtain ⟨shape, w⟩ := s
  cases shape <;> rfl

theorem map_diagnostic? (p : Position) (s : Segment) :
    (s.diagnostic? p).map (·.cause) = s.cause? := by
  obtain ⟨shape, w⟩ := s
  cases shape <;> cases w <;> rfl

theorem map_filterMap_placed {α β : Type} {f : Position → Segment → Option α} {g : α → β}
    {h : Segment → Option β} (hfg : ∀ p s, (f p s).map g = h s) (p : Place)
    (ss : List Segment) :
    ((placed p ss).filterMap fun (p, s) => f p.position s).map g = ss.filterMap h := by
  induction ss generalizing p with
  | nil => rfl
  | cons s ss ih =>
    rw [placed, List.filterMap_cons, List.filterMap_cons, ← hfg (s.place p).position s,
      ← ih (p.after s.text)]
    dsimp only
    cases f (s.place p).position s <;> rfl

theorem InPlace.kind?_ne_eof {s : Segment} {rest : List Char} (h : InPlace s rest) :
    s.kind? ≠ some .eof := by
  have hsymbol : ∀ k ∈ symbols, k ≠ .eof := by decide
  have hkeyword : ∀ k ∈ TokenKind.keywords, k ≠ .eof := by decide
  cases h with
  | lexeme h =>
    cases h.lexeme with
    | symbol hk => exact fun hkind => hsymbol _ hk (Option.some.inj hkind)
    | @word c w =>
      intro hkind
      have hkind := Option.some.inj hkind
      cases hword : TokenKind.keyword? (String.ofList (c :: w)) with
      | none =>
        rw [Segment.lexeme, hword] at hkind
        cases hkind
      | some k =>
        rw [Segment.lexeme, hword] at hkind
        exact hkeyword k (TokenKind.keyword?_eq_some_iff.1 hword).1 hkind
    | _ => exact fun hkind => by cases hkind
  | stray | openString => exact fun hkind => by cases hkind

theorem Segmentation.inPlace {cs : List Char} {ss : List Segment} (h : Segmentation cs ss) :
    ∀ s ∈ ss, ∃ rest, InPlace s rest := by
  induction h with
  | nil => simp
  | @cons s rest ss h _ ih => exact List.forall_mem_cons.2 ⟨⟨rest, h⟩, ih⟩

end Segment

open Segment

theorem body_scan (source : String) :
    (scan source).tokens.body.map (fun t => (t.kind, t.lexeme)) =
      (segments source.toList).filterMap fun s => s.kind?.map (·, s.lexeme) :=
  map_filterMap_placed map_token? Place.start _

/-- Every source has exactly one segmentation.  The tokens of a scan are its numerals, words,
strings and symbols in order, then the only end-of-input token, and the errors are its stray
characters and the string that is never closed. -/
theorem scan_exact (source : String) :
    ∃ ss, Segmentation source.toList ss ∧ (∀ ss', Segmentation source.toList ss' → ss' = ss) ∧
      ss.flatMap text = source.toList ∧ (∀ s ∈ ss.dropLast, s.shape ≠ .openString) ∧
      (scan source).tokens.toList.map (fun t => (t.kind, t.lexeme)) =
        ss.filterMap (fun s => s.kind?.map (·, s.lexeme)) ++ [(.eof, "")] ∧
      (∀ t ∈ (scan source).tokens.body, t.kind ≠ .eof) ∧
      (scan source).diagnostics.map (·.cause) = ss.filterMap cause? := by
  have hseg := segmentation_segments source.toList
  refine ⟨segments source.toList, hseg, fun _ h => segmentation_iff.1 h, flatMap_text_segments _,
    hseg.shape_ne_openString, ?_, ?_, map_filterMap_placed map_diagnostic? Place.start _⟩
  · rw [TokenStream.toList, List.map_append, body_scan]
    rfl
  · -- neither a keyword nor a symbol is the end of input
    intro t ht heof
    have hmem := List.mem_map_of_mem (f := fun t => (t.kind, t.lexeme)) ht
    rw [body_scan, List.mem_filterMap] at hmem
    obtain ⟨s, hs, hkind⟩ := hmem
    obtain ⟨rest, hrest⟩ := hseg.inPlace s hs
    obtain ⟨k, hk, hpair⟩ := Option.map_eq_some_iff.1 hkind
    obtain ⟨rfl, -⟩ := Prod.mk.inj hpair
    exact hrest.kind?_ne_eof (hk.trans (congrArg some heof))

end Lox

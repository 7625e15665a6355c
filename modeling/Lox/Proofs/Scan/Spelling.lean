import Lox.Proofs.Spans

/-!
# How tokens are spelled

A scan gives every token the kind and the value that its lexeme has: a number the value of its
numeral, a string the text between its quotes, a keyword or a symbol no value but the text of its
kind, and a name no value and a word that is not reserved (`Token.spelled_of_mem_scan`).
-/

namespace Lox

open Segment

namespace TokenKind

/-- The kinds with only one lexeme. -/
def fixed : List TokenKind :=
  keywords ++ symbols

/-- A kind is known by its text. -/
theorem text_injective {k l : TokenKind} (hk : k ∈ fixed) (hl : l ∈ fixed) (h : k.text = l.text) :
    k = l := by
  have key : ∀ k ∈ fixed, ∀ l ∈ fixed, k.text = l.text → k = l := by decide
  exact key k hk l hl h

end TokenKind

/-- The token has the kind and the value that its lexeme has. -/
inductive Token.Spelled : Token → Prop
  | eof {t} (hk : t.kind = .eof) (hl : t.literal = none) : Spelled t
  | number {t} (hk : t.kind = .number) (hw : Lexeme .number t.lexeme.toList)
      (hl : t.literal = some (.number (Number.ofDecimal (.ofNumeral t.lexeme.toList)))) : Spelled t
  | string {t} (hk : t.kind = .string) (hw : Lexeme .string t.lexeme.toList)
      (hl : t.literal = some (.string (String.ofList (t.lexeme.toList.drop 1).dropLast))) :
      Spelled t
  | name {t} (hk : t.kind = .identifier) (hw : Lexeme .word t.lexeme.toList)
      (hr : TokenKind.keyword? t.lexeme = none) (hl : t.literal = none) : Spelled t
  | fixed {t} (hk : t.kind ∈ TokenKind.fixed) (hw : t.lexeme = t.kind.text)
      (hl : t.literal = none) : Spelled t

namespace Segment

theorem toList_lexeme (s : Segment) : s.lexeme.toList = s.text :=
  String.toList_ofList

theorem spelled_word {w : List Char} (hw : Lexeme .word w) {p : Position} {t : Token}
    (ht : token? p ⟨.word, w⟩ = some t) : t.Spelled := by
  obtain rfl := Option.some.inj ht
  cases hword : TokenKind.keyword? (lexeme ⟨.word, w⟩) with
  | none => exact .name rfl (by rwa [toList_lexeme]) hword rfl
  | some k =>
    obtain ⟨hk, htext⟩ := TokenKind.keyword?_eq_some_iff.1 hword
    exact .fixed (List.mem_append_left _ hk) htext.symm rfl

theorem spelled_of_token? {s : Segment} {rest : List Char} (h : InPlace s rest) {p : Position}
    {t : Token} (ht : s.token? p = some t) : t.Spelled := by
  cases h with
  | @lexeme shape w _ h =>
    have hw := h.lexeme
    cases shape with
    | blank | comment | openString | stray => cases ht
    | number =>
      cases ht
      exact .number rfl (by rwa [toList_lexeme]) (by rw [toList_lexeme])
    | word => exact spelled_word hw ht
    | string =>
      cases ht
      exact .string rfl (by rwa [toList_lexeme]) (by rw [toList_lexeme])
    | symbol k =>
      cases ht
      cases hw with
      | symbol hk => exact .fixed (List.mem_append_right _ hk) String.ofList_toList rfl
  | stray | openString => cases ht

end Segment

namespace Token

/-- Every token of a scan has the kind and the value that its lexeme has. -/
theorem spelled_of_mem_scan {source : String} {t : Token} (ht : t ∈ (scan source).tokens.toList) :
    t.Spelled := by
  rcases List.mem_append.1 ht with ht | ht
  · rw [body_scan_spans] at ht
    obtain ⟨⟨before, s⟩, hx, ht⟩ := List.mem_filterMap.1 ht
    obtain ⟨rest, -, hplace⟩ := (segmentation_segments source.toList).of_mem_spans hx
    exact spelled_of_token? hplace ht
  · rw [List.mem_singleton] at ht
    subst ht
    exact .eof rfl rfl

variable {t u : Token}

theorem Spelled.literal_of_eof (h : t.Spelled) (hk : t.kind = .eof) : t.literal = none := by
  cases h with
  | eof _ hl | name _ _ _ hl | fixed _ _ hl => exact hl
  | number h | string h =>
    rw [hk] at h
    cases h

theorem Spelled.name_of_kind (h : t.Spelled) (hk : t.kind = .identifier) :
    Lexeme .word t.lexeme.toList ∧ TokenKind.keyword? t.lexeme = none ∧ t.literal = none := by
  cases h with
  | name _ hw hr hl => exact ⟨hw, hr, hl⟩
  | fixed h =>
    rw [hk] at h
    exact absurd h (by decide)
  | eof h | number h | string h =>
    rw [hk] at h
    cases h

theorem Spelled.fixed_of_kind (h : t.Spelled) (hk : t.kind ∈ TokenKind.fixed) :
    t.lexeme = t.kind.text ∧ t.literal = none := by
  cases h with
  | fixed _ hw hl => exact ⟨hw, hl⟩
  | eof h | number h | string h | name h =>
    rw [h] at hk
    exact absurd hk (by decide)

/-- The only values are those of numerals and strings. -/
theorem Spelled.literal_cases (h : t.Spelled) {v : Literal} (hv : t.literal = some v) :
    (∃ d, v = .number (Number.ofDecimal d)) ∨ ∃ s, v = .string s := by
  cases h with
  | number _ _ hl => exact .inl ⟨_, Option.some.inj (hv.symm.trans hl)⟩
  | string _ _ hl => exact .inr ⟨_, Option.some.inj (hv.symm.trans hl)⟩
  | eof _ hl | name _ _ _ hl | fixed _ _ hl =>
    rw [hl] at hv
    cases hv

end Token

end Lox

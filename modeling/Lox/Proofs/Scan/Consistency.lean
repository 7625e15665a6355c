import Lox.Proofs.Scan.Spacing
import Lox.Proofs.Scan.Spelling

/-!
# Consistent tokens

The kind of a token, its lexeme and its value are found in different ways: the kind by the first
characters or by the table of reserved words, the lexeme as a piece of the source, and the value
from the lexeme.  The key fact: in every token of a scan they fit together
(`Token.consistent_of_mem_scan`), so that a token that carries a value is a number or a string.
-/

namespace Lox

open Segment

namespace Token

/-- The kind of the token, its lexeme and its value fit together. -/
structure Consistent (t : Token) : Prop where
  number : t.kind = .number → Lexeme .number t.lexeme.toList ∧
    t.literal = some (.number (Number.ofDecimal (.ofNumeral t.lexeme.toList)))
  string : t.kind = .string → ∃ body : String, t.lexeme = "\"" ++ body ++ "\"" ∧
    t.literal = some (.string body) ∧ '"' ∉ body.toList
  name : t.kind = .identifier →
    Lexeme .word t.lexeme.toList ∧ TokenKind.reserved.lookup t.lexeme = none
  fixed : t.kind ∉ [.eof, .number, .string, .identifier] → t.lexeme = t.kind.text
  word : Lexeme .word t.lexeme.toList →
    ∀ k, t.kind = k ∧ k ≠ .identifier ↔ TokenKind.reserved.lookup t.lexeme = some k
  value : t.kind ∉ [.number, .string] → t.literal = none

variable {t : Token}

theorem Spelled.number_of_kind (h : t.Spelled) (hk : t.kind = .number) :
    Lexeme .number t.lexeme.toList ∧
      t.literal = some (.number (Number.ofDecimal (.ofNumeral t.lexeme.toList))) := by
  cases h with
  | number _ hw hl => exact ⟨hw, hl⟩
  | fixed h =>
    rw [hk] at h
    exact absurd h (by decide)
  | eof h | string h | name h =>
    rw [hk] at h
    cases h

theorem Spelled.string_of_kind (h : t.Spelled) (hk : t.kind = .string) :
    ∃ body : String, t.lexeme = "\"" ++ body ++ "\"" ∧ t.literal = some (.string body) ∧
      '"' ∉ body.toList := by
  cases h with
  | string _ hw hl =>
    generalize hchars : t.lexeme.toList = cs at hw hl
    cases hw with
    | @string w hw =>
      refine ⟨String.ofList w, ?_, ?_, ?_⟩
      · rw [← String.toList_inj, hchars]
        simp
      · simp [hl]
      · rwa [String.toList_ofList]
  | fixed h =>
    rw [hk] at h
    exact absurd h (by decide)
  | eof h | number h | name h =>
    rw [hk] at h
    cases h

/-- All other tokens are known by their kind. -/
theorem Spelled.lexeme_eq_text (h : t.Spelled)
    (hk : t.kind ∉ [.eof, .number, .string, .identifier]) : t.lexeme = t.kind.text := by
  cases h with
  | fixed _ hw => exact hw
  | eof h | number h | string h | name h => simp [h] at hk

theorem Spelled.literal_eq_none (h : t.Spelled) (hk : t.kind ∉ [.number, .string]) :
    t.literal = none := by
  cases h with
  | eof _ hl | name _ _ _ hl | fixed _ _ hl => exact hl
  | number h | string h => simp [h] at hk

/-- A token whose lexeme is a word is a keyword or a name, as the table of reserved words has it. -/
theorem Spelled.kind_of_word (h : t.Spelled) (hend : t.kind = .eof → t.lexeme = "")
    (hw : Lexeme .word t.lexeme.toList) :
    t.kind = (TokenKind.reserved.lookup t.lexeme).getD .identifier := by
  rw [TokenKind.lookup_reserved]
  cases h with
  | eof h =>
    rw [hend h] at hw
    exact absurd rfl hw.ne_nil
  | number _ hw' => cases hw.shape_unique hw'
  | string _ hw' => cases hw.shape_unique hw'
  | name h _ hr => rw [h, hr, Option.getD_none]
  | fixed h htext =>
    rcases List.mem_append.1 h with hk | hk
    · rw [TokenKind.keyword?_eq_some_iff.2 ⟨hk, htext.symm⟩, Option.getD_some]
    · rw [htext] at hw
      cases hw.shape_unique (.symbol hk)

theorem ne_identifier_of_lookup_reserved {word : String} {k : TokenKind}
    (h : TokenKind.reserved.lookup word = some k) : k ≠ .identifier := by
  rw [TokenKind.lookup_reserved] at h
  have hk := (TokenKind.keyword?_eq_some_iff.1 h).1
  rintro rfl
  exact absurd hk (by decide)

theorem Spelled.consistent (h : t.Spelled) (hend : t.kind = .eof → t.lexeme = "") :
    t.Consistent where
  number := h.number_of_kind
  string := h.string_of_kind
  name hk := by
    obtain ⟨hw, hr, -⟩ := h.name_of_kind hk
    exact ⟨hw, (TokenKind.lookup_reserved _).trans hr⟩
  fixed := h.lexeme_eq_text
  word hw k := by
    rw [h.kind_of_word hend hw]
    cases hk : TokenKind.reserved.lookup t.lexeme with
    | none => simp [eq_comm]
    | some k' =>
      have hne := ne_identifier_of_lookup_reserved hk
      constructor
      · rintro ⟨rfl, -⟩
        rfl
      · rintro ⟨⟩
        exact ⟨rfl, hne⟩
  value := h.literal_eq_none

/-- In every token of a scan the kind, the lexeme and the value fit together. -/
theorem consistent_of_mem_scan {source : String} {t : Token}
    (ht : t ∈ (scan source).tokens.toList) : t.Consistent := by
  refine (spelled_of_mem_scan ht).consistent fun hk => ?_
  rcases List.mem_append.1 ht with ht | ht
  · exact absurd hk (kind_ne_eof_of_mem_body_scan ht)
  · obtain rfl := List.mem_singleton.1 ht
    rw [last_scan]

/-- A string whose text is a reserved word. -/
theorem consistent_of_mem_scan_string :
    let t : Token := ⟨⟨1, 7⟩, .string, "\"nil\"", some (.string "nil")⟩
    t ∈ (scan "print \"nil\";").tokens.toList ∧ t.Consistent := by
  intro t
  have ht : t ∈ (scan "print \"nil\";").tokens.toList := by decide +kernel
  exact ⟨ht, consistent_of_mem_scan ht⟩

end Token

end Lox

import Lox.Scan

/-!
# Reading heads

A reading head stands somewhere in a source and can be moved on by hand before the rest is scanned.
Its offset is counted in bytes of the UTF-8 encoding and is not checked when it moves; what stands
behind it can be read only if it is a boundary of characters within the source.  The key fact: these
are the byte lengths of the source's prefixes (`dropBytes?_eq_some_iff`).
-/

namespace Lox

namespace Text

def byteLength : List Char → Nat
  | [] => 0
  | c :: cs => c.utf8Size + byteLength cs

/-- The text behind the first `n` bytes, if they end at a boundary of characters. -/
def dropBytes? : Nat → List Char → Option (List Char)
  | 0, cs => some cs
  | _ + 1, [] => none
  | n + 1, c :: cs => if c.utf8Size ≤ n + 1 then dropBytes? (n + 1 - c.utf8Size) cs else none

theorem dropBytes?_eq_some_iff {n : Nat} {cs ds : List Char} :
    dropBytes? n cs = some ds ↔ ∃ pre, cs = pre ++ ds ∧ byteLength pre = n := by
  constructor
  · intro h
    fun_induction dropBytes? n cs with
    | case1 cs => cases h; exact ⟨[], rfl, rfl⟩
    | case2 => cases h
    | case3 n c cs hc ih =>
      obtain ⟨pre, rfl, hn⟩ := ih h
      refine ⟨c :: pre, rfl, ?_⟩
      simp only [byteLength]
      omega
    | case4 => cases h
  · rintro ⟨pre, rfl, rfl⟩
    induction pre with
    | nil => simp [byteLength, dropBytes?]
    | cons c pre ih =>
      have hc := c.utf8Size_pos
      have hb : byteLength (c :: pre) = c.utf8Size + byteLength pre := rfl
      obtain ⟨m, hm⟩ : ∃ m, byteLength (c :: pre) = m + 1 :=
        ⟨c.utf8Size - 1 + byteLength pre, by omega⟩
      have hp : m + 1 - c.utf8Size = byteLength pre := by omega
      rw [hm, List.cons_append, dropBytes?, if_pos (by omega), hp]
      exact ih

end Text

structure Head where
  source : List Char
  offset : Nat := 0
  pushed : List Token := []

namespace Head

def ofSource (source : String) : Head :=
  { source := source.toList }

def skip (h : Head) (bytes : Nat) : Head :=
  { h with offset := h.offset + bytes }

/-- Adds a token in front of those that will be scanned. -/
def push (h : Head) (t : Token) : Head :=
  { h with pushed := h.pushed ++ [t] }

/-- The beginning of the last lexeme.  Moving by hand reads no lexeme, so this stays the start of
the source. -/
def position (_ : Head) : Position := .start

def remainder? (h : Head) : Option (List Char) :=
  Text.dropBytes? h.offset h.source

def atEnd (h : Head) : Bool :=
  Text.byteLength h.source ≤ h.offset

/-- The scan of the remainder.  What was skipped by hand counts as part of the first line. -/
def scan? (h : Head) : Option Scan :=
  h.remainder?.map fun rest =>
    let s := Scan.ofText ⟨1, h.source.length - rest.length + 1⟩ rest
    { s with tokens := { s.tokens with body := h.pushed ++ s.tokens.body } }

end Head

end Lox

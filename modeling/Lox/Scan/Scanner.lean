import Lox.Scan.Head

/-!
# The scanner

The scanner reads a source lexeme by lexeme and counts in bytes of the UTF-8 encoding.  Whatever it
looks at is a slice of the source between two offsets, and there is a slice only between boundaries
of characters that stand in order (`Text.slice?_eq_some_iff`): where an offset is wrong, the scanner
stops with `none`.  Lines and columns are numbers of 32 bits; a sum that needs more wraps around or
stops the scanner too, as it is set to do (`Overflow`).  A lexeme is recognized by the first pattern
of a table that matches in front of what is left, and is read by the handler of that pattern, which
may go farther than the match.
-/

namespace Lox

namespace Text

theorem byteLength_append (cs ds : List Char) :
    byteLength (cs ++ ds) = byteLength cs + byteLength ds := by
  induction cs with
  | nil => simp [byteLength]
  | cons c cs ih => simp only [List.cons_append, byteLength, ih, Nat.add_assoc]

theorem byteLength_eq_zero_iff {cs : List Char} : byteLength cs = 0 ↔ cs = [] := by
  cases cs with
  | nil => simp [byteLength]
  | cons c cs =>
    have := c.utf8Size_pos
    simp only [byteLength, reduceCtorEq, iff_false]
    omega

/-- The text between two offsets. -/
def slice? (start stop : Nat) (cs : List Char) : Option (List Char) :=
  if start ≤ stop then do
    let tail ← dropBytes? start cs
    let rest ← dropBytes? stop cs
    some (tail.take (tail.length - rest.length))
  else none

theorem slice?_eq_some_iff {start stop : Nat} {cs w : List Char} :
    slice? start stop cs = some w ↔ ∃ pre rest,
      cs = pre ++ w ++ rest ∧ byteLength pre = start ∧ byteLength (pre ++ w) = stop := by
  unfold slice?
  constructor
  · intro h
    split at h
    · next hle =>
      obtain ⟨tail, htail, h⟩ := Option.bind_eq_some_iff.1 h
      obtain ⟨rest, hrest, htake⟩ := Option.bind_eq_some_iff.1 h
      obtain ⟨pre, rfl, rfl⟩ := dropBytes?_eq_some_iff.1 htail
      obtain ⟨all, hall, rfl⟩ := dropBytes?_eq_some_iff.1 hrest
      rcases List.append_eq_append_iff.1 hall with ⟨v, rfl, rfl⟩ | ⟨v, rfl, rfl⟩
      · obtain rfl : v = w := by simpa using htake
        exact ⟨pre, rest, by simp, rfl, rfl⟩
      · -- the beginning is not behind the end, so nothing lies between them
        obtain rfl : v = [] := by
          rw [byteLength_append] at hle
          exact byteLength_eq_zero_iff.1 (by omega)
        obtain rfl : [] = w := by simpa using htake
        exact ⟨all, tail, by simp, by simp, by simp⟩
    · cases h
  · rintro ⟨pre, rest, rfl, rfl, rfl⟩
    have htail : dropBytes? (byteLength pre) (pre ++ w ++ rest) = some (w ++ rest) :=
      dropBytes?_eq_some_iff.2 ⟨pre, List.append_assoc .., rfl⟩
    have hrest : dropBytes? (byteLength (pre ++ w)) (pre ++ w ++ rest) = some rest :=
      dropBytes?_eq_some_iff.2 ⟨pre ++ w, rfl, rfl⟩
    rw [if_pos (by rw [byteLength_append]; omega), htail, hrest]
    simp

/-- The offset of the first `c`. -/
def find? (c : Char) : List Char → Option Nat
  | [] => none
  | d :: cs => if d = c then some 0 else (find? c cs).map (d.utf8Size + ·)

/-- The offset of the last `c`. -/
def rfind? (c : Char) : List Char → Option Nat
  | [] => none
  | d :: cs =>
    match rfind? c cs with
    | some offset => some (d.utf8Size + offset)
    | none => if d = c then some 0 else none

end Text

/-! ### Patterns -/

inductive Pattern
  | one (p : Char → Bool)
  | many (p : Char → Bool)
  | text (w : List Char)
  | both (first second : Pattern)
  | optional (pattern : Pattern)

/-- What the pattern matches in front of a text, as much as it can. -/
def Pattern.front? : Pattern → List Char → Option (List Char)
  | one _, [] => none
  | one p, c :: _ => if p c then some [c] else none
  | many p, cs => some (cs.takeWhile p)
  | text w, cs => if w.isPrefixOf cs then some w else none
  | both first second, cs => do
    let v ← first.front? cs
    let w ← second.front? (cs.drop v.length)
    some (v ++ w)
  | optional pattern, cs => some ((pattern.front? cs).getD [])

/-- What to do with a match. -/
inductive Handler
  | blank
  | comment
  | number
  | word
  | string
  | symbol (kind : TokenKind) (w : List Char)

namespace Handler

/-- The symbols with their texts.  Those of two characters precede those of one. -/
def symbols : List (TokenKind × String) :=
  [(.notEquals, "!="), (.equals, "=="), (.lessEquals, "<="), (.greaterEquals, ">="),
   (.not, "!"), (.assignment, "="), (.less, "<"), (.greater, ">"),
   (.openParen, "("), (.closeParen, ")"), (.openCurly, "\x7b"), (.closeCurly, "\x7d"),
   (.comma, ","), (.dot, "."), (.dash, "-"), (.plus, "+"), (.semicolon, ";"),
   (.slash, "/"), (.star, "*")]

open Pattern in
/-- The patterns in the order in which they are tried, each with its handler. -/
def table : List (Pattern × Handler) :=
  let digits := both (one Char.isDigit) (many Char.isDigit)
  [(both (one Char.isWhitespace) (many Char.isWhitespace), .blank),
   (both (text ['/', '/']) (many (· ≠ '\n')), .comment),
   (both digits (optional (both (text ['.']) digits)), .number),
   (both (one Segment.isWordStart) (many Segment.isWordPart), .word),
   (text ['"'], .string)] ++
  symbols.map fun (kind, w) => (text w.toList, .symbol kind w.toList)

/-- The handler of the first pattern that matches in front of a text, and what it matches. -/
def choose? (cs : List Char) : Option (Handler × List Char) :=
  table.findSome? fun (pattern, handler) => (pattern.front? cs).map (handler, ·)

end Handler

/-! ### Sums -/

/-- What becomes of a sum that has more than 32 bits. -/
inductive Overflow
  | wraps
  | stops

namespace Overflow

def add? (o : Overflow) (m n : UInt32) : Option UInt32 :=
  match o with
  | wraps => some (m + n)
  | stops => if m.toNat + n.toNat < UInt32.size then some (m + n) else none

/-- The last 32 bits of a sum of natural numbers, if it has no more or may wrap around. -/
theorem add?_of_lt {o : Overflow} {m n : Nat} (h : o = .wraps ∨ m + n < UInt32.size) :
    o.add? m n = some ((m + n : Nat) : UInt32) := by
  have hsum : (m : UInt32) + (n : UInt32) = ((m + n : Nat) : UInt32) :=
    (UInt32.ofNat_add m n).symm
  cases o with
  | wraps => exact congrArg some hsum
  | stops =>
    have hlt : m + n < UInt32.size := h.resolve_left Overflow.noConfusion
    have hm : (m : UInt32).toNat = m := UInt32.toNat_ofNat_of_lt' (by omega)
    have hn : (n : UInt32).toNat = n := UInt32.toNat_ofNat_of_lt' (by omega)
    rw [add?, if_pos (by rwa [hm, hn]), hsum]

end Overflow

/-! ### Steps -/

/-- The offsets are those of the next character to read, of the beginning of the current lexeme,
and of the beginning of the current line. -/
@[ext]
structure Scanner where
  source : List Char
  overflow : Overflow
  pos : Nat := 0
  start : Nat := 0
  line : UInt32 := 1
  lineStart : Nat := 0
  tokens : List Token := []
  diagnostics : List Diagnostic := []

namespace Scanner

def ofSource (overflow : Overflow) (source : String) : Scanner :=
  { source := source.toList, overflow }

/-- The length of the source in bytes. -/
def size (s : Scanner) : Nat :=
  Text.byteLength s.source

def atEnd (s : Scanner) : Bool :=
  s.size ≤ s.pos

def slice? (s : Scanner) (start stop : Nat) : Option (List Char) :=
  Text.slice? start stop s.source

def remainder? (s : Scanner) : Option (List Char) :=
  s.slice? s.pos s.size

/-- The next character, or `none` at the end. -/
def at? (s : Scanner) : Option (Option Char) :=
  s.remainder?.map (·.head?)

def advance (s : Scanner) (bytes : Nat) : Scanner :=
  { s with pos := s.pos + bytes }

def push (s : Scanner) (t : Token) : Scanner :=
  { s with tokens := s.tokens ++ [t] }

/-- The column in which the current lexeme begins, or 1 if it begins on an earlier line. -/
def column? (s : Scanner) : Option UInt32 :=
  if s.start < s.lineStart then some 1
  else (s.slice? s.lineStart s.start).bind fun text => s.overflow.add? text.length 1

/-- Counts the newlines between two offsets, and moves the beginning of the line behind the last of
them. -/
def trackLines? (s : Scanner) (start stop : Nat) : Option Scanner := do
  let text ← s.slice? start stop
  match Text.rfind? '\n' text with
  | none => some s
  | some last =>
    let line ← s.overflow.add? s.line (text.count '\n')
    some { s with line, lineStart := start + last + 1 }

def report? (s : Scanner) (cause : Cause) : Option Scanner := do
  let column ← s.column?
  some { s with diagnostics := s.diagnostics ++ [.atPosition cause ⟨s.line, column⟩] }

/-- Reads the matched bytes as a lexeme on a single line. -/
def read? (s : Scanner) (bytes : Nat) (token : Position → List Char → Token) : Option Scanner := do
  let rest ← s.remainder?
  let lexeme ← Text.slice? 0 bytes rest
  let column ← s.column?
  let s := s.advance bytes
  some (s.push (token ⟨s.line, column⟩ lexeme))

/-- Reads a string up to its closing quote, or to the end of the source if there is none.  It may
go over several lines. -/
def readString? (s : Scanner) : Option Scanner := do
  let start := s.pos + 1
  let rest ← s.slice? start s.size
  match Text.find? '"' rest with
  | some offset =>
    let stop := start + offset
    let value ← s.slice? start stop
    let lexeme ← s.slice? s.pos (stop + 1)
    let s ← s.trackLines? start stop
    let s := { s with pos := stop + 1 }
    let column ← s.column?
    some (s.push ⟨⟨s.line, column⟩, .string, .ofList lexeme, some (.string (.ofList value))⟩)
  | none =>
    let s ← s.trackLines? start s.size
    report? { s with pos := s.size } .unterminatedString

/-- A symbol is read without a look at the source: its text is known. -/
def readSymbol? (s : Scanner) (kind : TokenKind) (w : List Char) : Option Scanner := do
  let column ← s.column?
  let s := s.advance (Text.byteLength w)
  some (s.push ⟨⟨s.line, column⟩, kind, .ofList w, none⟩)

/-- Handles a match of so many bytes. -/
def handle? (s : Scanner) (bytes : Nat) : Handler → Option Scanner
  | .blank => (s.trackLines? s.pos (s.pos + bytes)).map (·.advance bytes)
  | .comment => some (s.advance bytes)
  | .number => s.read? bytes fun p w =>
      ⟨p, .number, .ofList w, some (.number (Number.ofDecimal (.ofNumeral w)))⟩
  | .word => s.read? bytes fun p w =>
      ⟨p, (TokenKind.keyword? (.ofList w)).getD .identifier, .ofList w, none⟩
  | .string => s.readString?
  | .symbol kind w => s.readSymbol? kind w

/-- Reads one lexeme.  A character that no pattern matches is reported and passed over. -/
def step? (s : Scanner) : Option Scanner := do
  let s := { s with start := s.pos }
  let rest ← s.remainder?
  match Handler.choose? rest with
  | some (handler, front) => s.handle? (Text.byteLength front) handler
  | none =>
    match ← s.at? with
    | some c => (s.advance c.utf8Size).report? (.unexpectedCharacter c)
    | none => some s

/-- The scanner `t` is reached from `s` in so many steps, of which none begins at the end. -/
inductive Steps : Nat → Scanner → Scanner → Prop
  | zero (s : Scanner) : Steps 0 s s
  | succ {n : Nat} {s t u : Scanner} (hs : s.atEnd = false) (ht : s.step? = some t)
      (h : Steps n t u) : Steps (n + 1) s u

/-- Closes the tokens with an end of input. -/
def finish? (s : Scanner) : Option Scanner := do
  let s := { s with start := s.pos }
  let column ← s.column?
  some (s.push ⟨⟨s.line, column⟩, .eof, "", none⟩)

end Scanner

end Lox

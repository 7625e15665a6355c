/-!
# Positions in a text

Lines and columns are counted from 1, columns in characters.  A place of a text is counted without a
bound.  The positions that tokens and diagnostics carry are numbers of 32 bits, so of a place only
the last 32 bits of both numbers are handed out (`Place.position`); nothing is lost if the place
fits (`Place.Fits.place_position`).  The key fact on places: walking over two pieces of text one
after the other is walking over their concatenation (`Place.after_append`).
-/

namespace Lox

/-- Of a number that is handed out the last 32 bits are kept. -/
instance coeNatUInt32 : Coe Nat UInt32 := ⟨Nat.toUInt32⟩

instance coeUInt32Nat : CoeOut UInt32 Nat := ⟨UInt32.toNat⟩

structure Position where
  line : UInt32
  column : UInt32
deriving DecidableEq

structure Place where
  line : Nat
  column : Nat
deriving DecidableEq

def Position.start : Position := ⟨1, 1⟩

def Position.place (p : Position) : Place :=
  ⟨p.line, p.column⟩

theorem Position.place_injective {p q : Position} (h : p.place = q.place) : p = q := by
  cases p
  cases q
  simpa [place, UInt32.toNat_inj] using h

namespace Place

def position (p : Place) : Position :=
  ⟨p.line, p.column⟩

/-- Both numbers have at most 32 bits. -/
structure Fits (p : Place) : Prop where
  line : p.line < UInt32.size
  column : p.column < UInt32.size

theorem Fits.place_position {p : Place} (h : p.Fits) : p.position.place = p := by
  cases p
  simp only [position, Position.place, Nat.toUInt32, UInt32.toNat_ofNat_of_lt' h.line,
    UInt32.toNat_ofNat_of_lt' h.column]

/-! ### Walking over a text -/

def start : Place := ⟨1, 1⟩

/-- The place behind the character `c`. -/
def next (p : Place) (c : Char) : Place :=
  if c = '\n' then ⟨p.line + 1, 1⟩ else ⟨p.line, p.column + 1⟩

/-- The place behind the text `cs`. -/
def after (p : Place) (cs : List Char) : Place :=
  cs.foldl next p

@[simp] theorem after_nil (p : Place) : p.after [] = p := rfl

@[simp] theorem after_cons (p : Place) (c : Char) (cs : List Char) :
    p.after (c :: cs) = (p.next c).after cs := rfl

theorem after_append (p : Place) (cs ds : List Char) :
    p.after (cs ++ ds) = (p.after cs).after ds := by
  simp [after]

theorem after_of_no_newline (p : Place) {cs : List Char} (h : '\n' ∉ cs) :
    p.after cs = ⟨p.line, p.column + cs.length⟩ := by
  induction cs generalizing p with
  | nil => rfl
  | cons c cs ih =>
    simp only [List.mem_cons, not_or] at h
    simp [ih _ h.2, next, Ne.symm h.1]
    omega

end Place

/-- All places of the text fit into 32 bits. -/
def Text.Fits (cs : List Char) : Prop :=
  ∀ w, w <+: cs → (Place.start.after w).Fits

end Lox

import Mathlib.Data.List.Forall2
import Lox.Tree

/-!
# The pieces of a tree

A tree keeps names, operators and values of the source.  In the order of the source they are its
pieces.  A piece stands at a token if it is that token, or the value of it (`Piece.StandsAt`).
-/

namespace Lox

/-- A name, an operator or a value. -/
inductive Piece
  | token (t : Token)
  | value (v : Literal)
deriving DecidableEq

/-- The values of the keywords that are constants. -/
def TokenKind.constant? : TokenKind → Option Literal
  | .kwTrue => some (.bool true)
  | .kwFalse => some (.bool false)
  | .kwNil => some .nil
  | _ => none

namespace Piece

/-- A name or an operator is the very token; a value is that of the token, or of its keyword. -/
def StandsAt : Piece → Token → Prop
  | token u, t => t = u
  | value v, t => t.literal = some v ∨ t.literal = none ∧ t.kind.constant? = some v

/-- The pieces stand at tokens of the list, each at one of its own, in the same order. -/
def StandIn : List Piece → List Token → Prop :=
  List.SublistForall₂ StandsAt

theorem standIn_nil (ts : List Token) : StandIn [] ts :=
  .nil

theorem standIn_token (t : Token) : StandIn [token t] [t] :=
  .cons rfl .nil

theorem standIn_value {v : Literal} {t : Token} (h : (value v).StandsAt t) : StandIn [value v] [t] :=
  .cons h .nil

variable {ps qs : List Piece} {ts us : List Token}

theorem StandIn.append (h : StandIn ps ts) (h' : StandIn qs us) : StandIn (ps ++ qs) (ts ++ us) := by
  obtain ⟨vs, hvs, hsub⟩ := List.sublistForall₂_iff.1 h
  obtain ⟨ws, hws, hsub'⟩ := List.sublistForall₂_iff.1 h'
  exact List.sublistForall₂_iff.2 ⟨vs ++ ws, List.rel_append hvs hws, hsub.append hsub'⟩

/-- Further tokens may stand behind. -/
theorem StandIn.append_right (h : StandIn ps ts) (us : List Token) : StandIn ps (ts ++ us) := by
  have key := h.append (standIn_nil us)
  rwa [List.append_nil] at key

/-- Further tokens may stand in front. -/
theorem StandIn.append_left (h : StandIn ps us) (ts : List Token) : StandIn ps (ts ++ us) :=
  (standIn_nil ts).append h

theorem StandIn.cons (h : StandIn ps ts) (t : Token) : StandIn (.token t :: ps) (t :: ts) :=
  (standIn_token t).append h

end Piece

def Expr.pieces : Expr → List Piece
  | literal value => [.value value]
  | grouping inner => inner.pieces
  | unary operator operand => .token operator :: operand.pieces
  | binary left operator right => left.pieces ++ .token operator :: right.pieces
  | var name => [.token name]
  | assign name value => .token name :: value.pieces

namespace Stmt

mutual

def pieces : Stmt → List Piece
  | expression expr => expr.pieces
  | print expr => expr.pieces
  | varDecl name initializer => .token name :: (initializer.map Expr.pieces).getD []
  | block body => allPieces body

def allPieces : List Stmt → List Piece
  | [] => []
  | s :: ss => s.pieces ++ allPieces ss

end

end Stmt

end Lox

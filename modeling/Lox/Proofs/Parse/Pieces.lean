import Lox.Proofs.Parse.Kept
import Lox.Proofs.Tree.Pieces

/-!
# The pieces of a program

No piece of a tree is made up, moved or used twice.  The pieces of a tree that the tolerant grammar
derives stand in the tokens that it is derived from (`Program.standIn`), so those of a program that
the parser returns stand in the stream, one behind the other, whatever was reported
(`pieces_parse`).
-/

namespace Lox

open Piece

namespace Tolerant

variable {room : Nat} {ts : List Token} {bad : List Token}

theorem Derives.standIn {p : Precedence} {e : Expr} (h : Derives room p ts e bad) :
    StandIn e.pieces ts := by
  induction h with
  | literal h => exact standIn_value (.inl h)
  | false h hl => exact standIn_value (.inr ⟨hl, by rw [h]; rfl⟩)
  | true h hl => exact standIn_value (.inr ⟨hl, by rw [h]; rfl⟩)
  | nil h hl => exact standIn_value (.inr ⟨hl, by rw [h]; rfl⟩)
  | var _ _ => exact standIn_token _
  | @grouping _ o _ _ _ c _ _ _ _ ih => exact (ih.append_left [o]).append_right [c]
  | operand _ _ ih => exact ih
  | @unary _ o _ _ _ _ _ ih => exact ih.cons o
  | @binary _ _ _ _ _ o _ _ _ _ _ _ ihl ihr => exact ihl.append (ihr.cons o)
  | @assign _ _ _ _ q _ _ _ _ _ _ iht ihv => exact iht.append (ihv.append_left [q])
  | misplaced _ _ _ _ iht _ => exact iht.append_right _
  | next _ _ ih => exact ih

mutual

theorem Declaration.standIn {room : Nat} {ts : List Token} {s : Stmt} {bad : List Token} :
    Declaration room ts s bad → StandIn s.pieces ts
  | .var (k := k) (n := n) (s := s) _ _ _ => ((standIn_nil [s]).cons n).append_left [k]
  | .init (k := k) (n := n) (q := q) (s := s) _ _ _ h _ =>
    ((h.standIn.append_left [q]).cons n).append_left [k] |>.append_right [s]
  | .print (k := k) (s := s) _ h _ => (h.standIn.append_left [k]).append_right [s]
  | .block (o := o) (c := c) _ h _ => (h.standIn.append_left [o]).append_right [c]
  | .expression (s := s) h _ _ => h.standIn.append_right [s]

theorem Program.standIn {stop : List TokenKind} {room : Nat} {ts : List Token} {body : List Stmt}
    {bad : List Token} : Program stop room ts body bad → StandIn (Stmt.allPieces body) ts
  | .nil => standIn_nil []
  | .cons h _ hs => h.standIn.append hs.standIn

end

end Tolerant

namespace TokenStream

/-- If no end of input carries a value, the pieces of the program stand at tokens of the stream,
from left to right. -/
theorem pieces_parse {s : TokenStream} (h : ∀ t ∈ s.toList, t.kind = .eof → t.literal = none) :
    ∃ indices : List Nat, indices.Pairwise (· < ·) ∧
      List.Forall₂ (fun piece i => ∃ t, s.toList[i]? = some t ∧ piece.StandsAt t)
        (Stmt.allPieces s.parse.program) indices := by
  obtain ⟨kept, bad, hget, hsorted, -, hprogram⟩ := exists_kept (closed_cursor_of_toList h)
  have hstand : List.SublistForall₂ StandsAt (Stmt.allPieces s.parse.program)
      (kept.map Site.token) := hprogram.standIn
  obtain ⟨sites, hsites, hsub⟩ :=
    List.sublistForall₂_iff.1 (List.sublistForall₂_map_right_iff.1 hstand)
  refine ⟨sites.map Site.index, List.pairwise_map.2 (hsorted.sublist hsub),
    List.forall₂_map_right_iff.2 ?_⟩
  have hmem : ∀ k ∈ sites, s.toList[k.index]? = some k.token :=
    fun k hk => hget k (hsub.subset hk)
  have hboth : List.Forall₂ (fun k piece => s.toList[k.index]? = some k.token ∧
      StandsAt piece k.token) sites (Stmt.allPieces s.parse.program) :=
    (List.forall₂_and_left _ _).2 ⟨hmem, hsites.flip⟩
  exact hboth.flip.imp fun piece k hk => ⟨k.token, hk⟩

/-- Of `print nil; print ! ;` only the first statement is read. -/
theorem pieces_parse_print_nil :
    let s : TokenStream :=
      ⟨[.plain .kwPrint, .plain .kwNil, .plain .semicolon, .plain .kwPrint, .plain .not,
        .plain .semicolon], .plain .eof, rfl⟩
    Stmt.allPieces s.parse.program = [.value .nil] ∧
      ∃ indices : List Nat, indices.Pairwise (· < ·) ∧
        List.Forall₂ (fun piece i => ∃ t, s.toList[i]? = some t ∧ piece.StandsAt t)
          (Stmt.allPieces s.parse.program) indices := by
  intro s
  exact ⟨by decide +kernel, pieces_parse (by decide)⟩

end TokenStream

end Lox

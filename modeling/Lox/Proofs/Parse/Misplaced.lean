import Lox.Proofs.Grammar.Misplaced
import Lox.Proofs.Parse.Stream

/-!
# Reading on behind misplaced equals signs

A misplaced equals sign is reported, and the program is read as if neither the sign nor the value
behind it were there.  If nothing else is wrong, then each misplaced sign is reported, and nothing
but these, and without them the same program is read and nothing is reported (`parse_prune`).
-/

namespace Lox

open Parse

namespace TokenStream

/-- The stream without the misplaced equals signs and the values behind them. -/
def pruned (s : TokenStream) : TokenStream :=
  ⟨prune .empty s.body, s.last, s.last_kind⟩

variable {s : TokenStream}

theorem exists_pruned_program {body : List Stmt} {bad : List Token} (hs : s.WellFormed)
    (h : Tolerant.Program [] maxNesting s.body body bad) :
    (misplacedEquals .empty s.body).Perm bad ∧ s.pruned.WellFormed ∧
      Grammar.Program maxNesting s.pruned.body body := by
  obtain ⟨ts', hprogram, hprunes⟩ := h.exists_prunes hs.body
  have hbody : s.pruned.body = ts' := by
    have key := hprunes.prune []
    rw [List.append_nil, prune, List.append_nil] at key
    exact key
  refine ⟨hprunes.misplaced, ⟨?_, hs.last⟩, hbody ▸ hprogram⟩
  rw [hbody]
  exact fun t ht => hs.body t (hprunes.sublist.subset ht)

/-- If there is no panic, then the faults are the equals signs that have something else than a
single name to the left.  Without them and the values behind them the program is the same, and
nothing is reported. -/
theorem parse_prune (hs : s.WellFormed) (h : s.parse.firstPanic? = none) :
    s.parse.diagnostics.Perm
        ((misplacedEquals .empty s.body).map (Diagnostic.atToken .invalidAssignmentTarget)) ∧
      s.pruned.parse.diagnostics = [] ∧ s.pruned.parse.program = s.parse.program := by
  obtain ⟨body, bad, hprogram⟩ := exists_program hs.kind_ne_eof hs.last h
  obtain ⟨hbody, hnotes⟩ := parse_of_program hs.kind_ne_eof hprogram
  obtain ⟨hbad, hpruned, hgrammar⟩ := exists_pruned_program hs hprogram
  have htolerant := hgrammar.tolerant hpruned.body (List.nil_subset _)
  obtain ⟨hbody', hnotes'⟩ := parse_of_program hpruned.kind_ne_eof htolerant
  refine ⟨?_, hnotes'.diagnostics_eq, hbody'.trans hbody.symm⟩
  have hdiagnostics : s.parse.diagnostics = bad.map (.atToken .invalidAssignmentTarget) :=
    hnotes.diagnostics_eq
  rw [hdiagnostics]
  exact (hbad.map _).symm

/-- In `var a = (nil = a = nil) = nil;` the second and the last equals sign are misplaced. -/
theorem parse_prune_var :
    let a : Token := ⟨.start, .identifier, "a", none⟩
    let s : TokenStream :=
      ⟨[.plain .kwVar, a, .plain .assignment, .plain .openParen, .plain .kwNil, .plain .assignment,
        a, .plain .assignment, .plain .kwNil, .plain .closeParen, .plain .assignment, .plain .kwNil,
        .plain .semicolon], .plain .eof, rfl⟩
    s.WellFormed ∧ s.parse.firstPanic? = none ∧
      s.parse.diagnostics.Perm
        ((misplacedEquals .empty s.body).map (Diagnostic.atToken .invalidAssignmentTarget)) ∧
      s.pruned.parse.diagnostics = [] ∧ s.pruned.parse.program = s.parse.program := by
  intro a s
  have hs : s.WellFormed := ⟨by decide, rfl⟩
  have h : s.parse.firstPanic? = none := by decide +kernel
  exact ⟨hs, h, parse_prune hs h⟩

end TokenStream

end Lox

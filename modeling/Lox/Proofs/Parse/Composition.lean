import Lox.Proofs.Parse.Ahead
import Lox.Proofs.Parse.Enclosed
import Lox.Proofs.Parse.Levels
import Lox.Proofs.Parse.Stream

/-!
# Streams in pieces

Nothing is carried from one statement to the next.  Behind a program without panics the rest of a
stream is read as if it stood alone, whatever it is, and in braces such a program becomes a block,
unless it needs all levels (`parse_append`).
-/

namespace Lox

open Parse Tolerant

namespace Parse

/-- Behind a program a repetition of declarations goes on as it does from any place with the same
tokens ahead. -/
theorem many_item_append {stop : Cursor → Bool} {kinds : List TokenKind} (hs : Stops stop kinds)
    {room : Nat} {ts : List Token} {body : List Stmt} {bad : List Token} {c d d' : Cursor}
    (h : Program kinds room ts body bad) (hc : c.Passes ts d) (hd : d.SameAhead d') :
    ∃ os e e' noted notes notes', Note.Misplaced noted bad ∧
      many (item stop room) c = ⟨.ok (body.map some ++ os), e, noted ++ notes⟩ ∧
      many (item stop room) d' = ⟨.ok os, e', notes'⟩ ∧
      Note.diagnostics notes = Note.diagnostics notes' := by
  obtain ⟨noted, hn, hrun⟩ := many_item_of_program hs h hc
  have halike := (alike_item hs room).many d d' hd
  obtain ⟨os, hos⟩ := (settled_item stop room).many d
  rcases hrest : many (item stop room) d with ⟨f | os, e, notes⟩
  · rw [hrest] at hos
    cases hos
  · rw [hrest] at halike hrun
    obtain ⟨e', notes', hrun', -, hnotes⟩ := halike.exists_of_ok
    exact ⟨os, e, e', noted, notes, notes', hn, hrun, hrun', hnotes⟩

end Parse

namespace TokenStream

variable {P R : List Token} {o b e : Token} {body : List Stmt} {bad : List Token}
  (he : e.kind = .eof)

/-- What follows a program is read as if it stood alone. -/
theorem parse_behind_program (hP : ∀ t ∈ P, t.kind ≠ .eof) (hR : ∀ t ∈ R, t.kind ≠ .eof)
    (h : Program [] maxNesting P body bad) :
    let r := (TokenStream.mk R e he).parse
    let all := (TokenStream.mk (P ++ R) e he).parse
    all.program = body ++ r.program ∧
      all.diagnostics = bad.map (.atToken .invalidAssignmentTarget) ++ r.diagnostics := by
  intro r all
  have hc : (TokenStream.mk (P ++ R) e he).cursor.Passes P ⟨P.reverse, R, e⟩ := by
    rw [cursor_eq (List.forall_mem_append.2 ⟨hP, hR⟩)]
    exact ⟨rfl, by simp, rfl⟩
  have hd : (⟨P.reverse, R, e⟩ : Cursor).SameAhead (TokenStream.mk R e he).cursor := by
    rw [cursor_eq hR]
    exact ⟨rfl, rfl⟩
  obtain ⟨os, _, _, noted, notes, notes', hn, hall, hrest, hdiag⟩ :=
    many_item_append stops_atEnd h hc hd
  obtain ⟨hallbody, hallnotes⟩ := parse_of_many hall
  obtain ⟨hrbody, hrnotes⟩ := parse_of_many hrest
  refine ⟨?_, ?_⟩
  · rw [hallbody, hrbody, List.reduceOption_append, reduceOption_map_some]
  · unfold Parsing.diagnostics
    rw [hallnotes, hrnotes, Note.diagnostics_append, hn.diagnostics_eq, hdiag]

/-- A program that leaves a level is a block in braces. -/
theorem parse_program_in_braces (hP : RegularTokens P) (ho : o.kind = .openCurly)
    (hb : b.kind = .closeCurly) (h : Program [] (maxNesting - 1) P body bad) :
    let block := (TokenStream.mk (o :: P ++ [b]) e he).parse
    block.program = [.block body] ∧
      block.diagnostics = bad.map (.atToken .invalidAssignmentTarget) := by
  intro block
  have hblock : Program [] maxNesting (o :: P ++ [b]) [.block body] bad :=
    Declaration.program (.block ho (h.closed hP) hb) (by simp)
  have hall : ∀ t ∈ o :: P ++ [b], t.kind ≠ .eof := by
    have hPe : ∀ t ∈ P, t.kind ≠ .eof := fun t ht => (hP t ht).1
    simpa [ho, hb, or_imp, forall_and] using hPe
  obtain ⟨hbody, hnotes⟩ := parse_of_program (s := ⟨_, e, he⟩) hall hblock
  exact ⟨hbody, hnotes.diagnostics_eq⟩

/-- A program without panics is a program with fewer levels, unless it lacks them. -/
theorem exists_program_of_unhindered {room : Nat} (hP : ∀ t ∈ P, t.kind ≠ .eof)
    (hl : e.literal = none) (hr : room ≤ maxNesting)
    (hp : (TokenStream.mk P e he).parse.firstPanic? = none)
    (h : (program .standard room (TokenStream.mk P e he).cursor).Unhindered) :
    ∃ body bad, Program [] room P body bad := by
  refine exists_program_of_room (s := ⟨P, e, he⟩) hP hl ?_
  rwa [← extends_program .standard hr _ h, ← firstPanic?_parse]

/-- Behind a program without panics any tokens are read as if they stood alone: the statements and
what is reported are those of the two parts, in this order.  A program without panics that does not
lack levels one level deeper is read as a block when it stands in braces, with the same reports. -/
theorem parse_append (hl : e.literal = none) (hP : RegularTokens P)
    (hR : ∀ t ∈ R, t.kind ≠ .eof) (hp : (TokenStream.mk P e he).parse.firstPanic? = none) :
    let p := (TokenStream.mk P e he).parse
    let r := (TokenStream.mk R e he).parse
    let all := (TokenStream.mk (P ++ R) e he).parse
    let block := (TokenStream.mk (o :: P ++ [b]) e he).parse
    let deeper := program .standard (maxNesting - 1) (TokenStream.mk P e he).cursor
    (all.program = p.program ++ r.program ∧ all.diagnostics = p.diagnostics ++ r.diagnostics) ∧
      (o.kind = .openCurly → b.kind = .closeCurly →
        (∀ f ∈ Note.faults deeper.notes, f.cause ≠ .tooDeeplyNested) →
        block.program = [.block p.program] ∧ block.diagnostics = p.diagnostics) := by
  intro p r all block deeper
  have hPe : ∀ t ∈ P, t.kind ≠ .eof := fun t ht => (hP t ht).1
  constructor
  · obtain ⟨body, bad, hprog⟩ := exists_program hPe hl hp
    obtain ⟨hbody, hnotes⟩ := parse_of_program hPe hprog
    have hpdiag : p.diagnostics = _ := hnotes.diagnostics_eq
    rw [hbody, hpdiag]
    exact parse_behind_program he hPe hR hprog
  · intro ho hb hdeeper
    have hunhindered : deeper.Unhindered := by
      obtain ⟨body, hok⟩ := settled_program (maxNesting - 1) (TokenStream.mk P e he).cursor
      simpa [Outcome.Unhindered, Outcome.faults, deeper, hok] using hdeeper
    obtain ⟨body, bad, hprog⟩ :=
      exists_program_of_unhindered he hPe hl (Nat.sub_le ..) hp hunhindered
    obtain ⟨hbody, hnotes⟩ :=
      parse_of_program (s := ⟨P, e, he⟩) hPe (hprog.mono (Nat.sub_le ..))
    have hpdiag : p.diagnostics = _ := hnotes.diagnostics_eq
    rw [hbody, hpdiag]
    exact parse_program_in_braces he hP ho hb hprog

/-- The program `nil = nil;` with its misplaced equals sign, before `print;` and in braces. -/
theorem parse_append_print_semicolon :
    let P := [Token.plain .kwNil, .plain .assignment, .plain .kwNil, .plain .semicolon]
    let R := [Token.plain .kwPrint, .plain .semicolon]
    let p := (TokenStream.mk P (.plain .eof) rfl).parse
    let r := (TokenStream.mk R (.plain .eof) rfl).parse
    let all := (TokenStream.mk (P ++ R) (.plain .eof) rfl).parse
    let block := (TokenStream.mk (.plain .openCurly :: P ++ [.plain .closeCurly]) (.plain .eof)
      rfl).parse
    (all.program = p.program ++ r.program ∧ all.diagnostics = p.diagnostics ++ r.diagnostics) ∧
      block.program = [.block p.program] ∧ block.diagnostics = p.diagnostics := by
  intro P R p r all block
  have key := parse_append (e := .plain .eof) (P := P) (R := R) (o := .plain .openCurly)
    (b := .plain .closeCurly) rfl rfl (by decide) (by decide) (by decide +kernel)
  exact ⟨key.1, key.2 rfl rfl (by decide +kernel)⟩

end TokenStream

end Lox

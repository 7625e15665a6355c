import Mathlib.Order.Bounds.Basic
import Lox.Proofs.Session

/-!
# Where synchronization lands

Synchronization leaves the current token behind and stops at the first statement boundary: behind a
semicolon, at a token that begins a statement, or at the end of input.  The key facts: among the
places behind the current token it leads to the least one that is a boundary
(`Cursor.isLeast_synchronize`), and this is so of the numbers of the tokens too, wherever in a stream
it begins (`Session.synchronize_nearest`).
-/

namespace Lox

namespace Cursor

/-- A statement ends in front of the current token, or the current token begins one, or none is
left. -/
def atBoundary (c : Cursor) : Bool :=
  c.atEnd || c.passed.head?.any (·.kind = .semicolon) || c.isAt statementStarts

private theorem toBoundary_cons (passed rest : List Token) (t eof : Token) :
    toBoundary passed (t :: rest) eof =
      if (⟨passed, t :: rest, eof⟩ : Cursor).atBoundary then ⟨passed, t :: rest, eof⟩
      else toBoundary (t :: passed) rest eof :=
  rfl

private theorem atBoundary_toBoundary (passed rest : List Token) (eof : Token) :
    (toBoundary passed rest eof).atBoundary = true := by
  induction rest generalizing passed with
  | nil => rfl
  | cons t rest ih =>
    rw [toBoundary_cons]
    split
    · next h => exact h
    · exact ih (t :: passed)

/-- No boundary is jumped over. -/
private theorem toBoundary_le {passed rest : List Token} {eof : Token} {d : Cursor}
    (h : (⟨passed, rest, eof⟩ : Cursor) ≤ d) (hd : d.atBoundary = true) :
    toBoundary passed rest eof ≤ d := by
  induction rest generalizing passed with
  | nil => exact h
  | cons t rest ih =>
    rw [toBoundary_cons]
    split
    · exact h
    · next hc =>
      rcases eq_or_advance_le h with rfl | h
      · exact absurd hd hc
      · exact ih h

theorem isLeast_synchronize {c : Cursor} (hc : c.atEnd = false) :
    IsLeast {d | c.advance ≤ d ∧ d.atBoundary = true} c.synchronize := by
  rcases hr : c.rest with _ | ⟨t, rest⟩
  · simp [atEnd, hr] at hc
  · have hadvance : c.advance = ⟨t :: c.passed, rest, c.eof⟩ := by rw [advance, hr]
    have hsync : c.synchronize = toBoundary (t :: c.passed) rest c.eof := by rw [synchronize, hr]
    refine ⟨⟨c.advance_le_synchronize, ?_⟩, ?_⟩
    · rw [hsync]
      exact atBoundary_toBoundary _ rest c.eof
    · rintro d ⟨hle, hd⟩
      rw [hadvance] at hle
      rw [hsync]
      exact toBoundary_le hle hd

end Cursor

namespace TokenStream

variable {s : TokenStream} {i j : Nat}

/-- The token with the number `j` is an end of input or begins a statement, or a semicolon stands in
front of it. -/
def IsBoundary (s : TokenStream) (j : Nat) : Prop :=
  ∃ t u, s.toList[j - 1]? = some t ∧ s.toList[j]? = some u ∧
    (u.kind = .eof ∨ t.kind = .semicolon ∨ u.kind ∈ Cursor.statementStarts)

theorem head?_passed_cursorAt (hj : j ≤ s.toList.length) (h : 0 < j) :
    (s.cursorAt j).passed.head? = s.toList[j - 1]? := by
  show (s.toList.take j).reverse.head? = _
  rw [List.head?_reverse, List.getLast?_take, if_neg (Nat.ne_of_gt h),
    List.getElem?_eq_getElem (by omega), Option.some_or]

theorem atBoundary_cursorAt (hj : j < s.toList.length) (h : 0 < j) :
    (s.cursorAt j).atBoundary = true ↔ s.IsBoundary j := by
  have hstarts : (s.cursorAt j).isAt Cursor.statementStarts = true ↔
      s.toList[j].kind ∈ Cursor.statementStarts := by
    rw [(ended_cursorAt s j).isAt_iff (by decide), current_cursorAt hj]
  have ht : s.toList[j - 1]? = some s.toList[j - 1] := List.getElem?_eq_getElem (by omega)
  have hu : s.toList[j]? = some s.toList[j] := List.getElem?_eq_getElem hj
  simp only [Cursor.atBoundary, IsBoundary, Bool.or_eq_true, atEnd_cursorAt hj, hstarts,
    head?_passed_cursorAt (Nat.le_of_lt hj) h, ht, hu, Option.any_some, decide_eq_true_eq,
    Option.some.injEq, exists_eq_left', exists_and_left, or_assoc]

theorem isLeast_index_synchronize (hi : i < s.toList.length) (hk : s.toList[i].kind ≠ .eof) :
    IsLeast {j | i < j ∧ s.IsBoundary j} (s.cursorAt i).synchronize.index := by
  have hend : (s.cursorAt i).atEnd = false := by
    rw [← Bool.not_eq_true, atEnd_cursorAt hi]
    exact hk
  obtain ⟨⟨hadvance, hboundary⟩, hleast⟩ := Cursor.isLeast_synchronize hend
  have hle := (s.cursorAt i).le_synchronize
  obtain ⟨hd, heq⟩ := eq_cursorAt_of_le hi hle
  have hlt := Cursor.index_lt_of_advance_le hend hadvance
  rw [index_cursorAt hi] at hlt
  refine ⟨⟨hlt, ?_⟩, ?_⟩
  · rwa [heq, atBoundary_cursorAt hd (Nat.zero_lt_of_lt hlt)] at hboundary
  · rintro j ⟨hij, hj⟩
    by_contra hji
    -- a boundary in front of the one it leads to would be reached first
    have hrest : j ≤ i + (s.cursorAt i).rest.length := by
      have hlen := congrArg List.length (Cursor.tokens_eq_of_le hle)
      rw [Cursor.length_tokens, Cursor.length_tokens, index_cursorAt hi] at hlen
      omega
    have hcj := cursorAt_le hi (Nat.le_of_lt hij) hrest
    have hj' := (atBoundary_cursorAt (by omega) (Nat.zero_lt_of_lt hij)).2 hj
    rcases Cursor.eq_or_advance_le hcj with h | h
    · have hindex := congrArg Cursor.index h
      rw [index_cursorAt hi, index_cursorAt (by omega)] at hindex
      omega
    · have hfirst := Cursor.index_le_of_le (hleast ⟨h, hj'⟩)
      rw [index_cursorAt (by omega)] at hfirst
      exact hji hfirst

/-- From an end of input synchronization does not move, and from another token it moves to the
nearest boundary behind it. -/
theorem exists_synchronize_cursorAt (s : TokenStream) (i : Fin s.toList.length) :
    ∃ j : Fin s.toList.length, (s.cursorAt i).synchronize = s.cursorAt j ∧
      (s.toList[i].kind = .eof → j = i) ∧
      (s.toList[i].kind ≠ .eof → IsLeast {k | i.val < k ∧ s.IsBoundary k} j) := by
  by_cases hk : s.toList[i].kind = .eof
  · have hend := (atEnd_cursorAt i.isLt).2 hk
    exact ⟨i, Cursor.synchronize_of_atEnd hend, fun _ => rfl, fun h => absurd hk h⟩
  · obtain ⟨hj, heq⟩ := eq_cursorAt_of_le i.isLt (s.cursorAt i).le_synchronize
    exact ⟨⟨_, hj⟩, heq, fun h => absurd h hk, fun _ => isLeast_index_synchronize i.isLt hk⟩

end TokenStream

namespace Session

/-- A session that is asked for anything stands at a token of its stream. -/
theorem exists_cursor_eq_cursorAt (ts : TokenStream) (past : List Command) :
    ∃ i : Fin ts.toList.length, ((ofStream ts).after past).cursor = ts.cursorAt i := by
  have hle : ts.cursor ≤ ((ofStream ts).after past).cursor :=
    (extends_after (ofStream ts) past).cursor_le
  rw [← ts.cursorAt_zero] at hle
  obtain ⟨hi, heq⟩ := TokenStream.eq_cursorAt_of_le (by simp [TokenStream.toList]) hle
  exact ⟨⟨_, hi⟩, heq⟩

/-- Whatever a session was asked for, it stands at some token of its stream; and wherever it stands,
at the token with the number `i`, synchronization does not move it if that token is an end of input,
and moves it to the least number behind `i` that is a statement boundary otherwise.  The stream, the
rules, the diagnostics and the open levels stay as they are.  When a declaration synchronizes, the
numbers of both tokens and the line of the second one are logged. -/
theorem synchronize_nearest (ts : TokenStream) :
    (∀ past, ∃ i : Fin ts.toList.length, ((ofStream ts).after past).cursor = ts.cursorAt i) ∧
    ∀ (i : Fin ts.toList.length) (t : Session),
      let s := { t with cursor := ts.cursorAt i }
      ∃ j : Fin ts.toList.length,
        (ts.toList[i].kind = .eof → j = i) ∧
        (ts.toList[i].kind ≠ .eof → IsLeast {k | i.val < k ∧ ts.IsBoundary k} j) ∧
        s.execute .synchronize = ({ s with cursor := ts.cursorAt j }, .done) ∧
        (ts.cursorAt j).tokens = (ts.cursorAt i).tokens ∧
        (Parse.synchronize s.cursor).cursor = ts.cursorAt j ∧
        (Parse.synchronize s.cursor).notes.filterMap Note.logLine? =
          [⟨.debug, "synchronized from token " ++ toString i.val ++ " to token " ++
            toString j.val ++ " (line " ++ toString ts.toList[j].line ++ ")"⟩] := by
  refine ⟨exists_cursor_eq_cursorAt ts, fun i t => ?_⟩
  intro s
  obtain ⟨j, hsync, hend, hleast⟩ := ts.exists_synchronize_cursorAt i
  refine ⟨j, hend, hleast, ?_, ?_, hsync, ?_⟩
  · show ({ s with cursor := s.cursor.synchronize }, _) = _
    rw [hsync]
  · rw [← hsync]
    exact Cursor.tokens_eq_of_le (Cursor.le_synchronize _)
  · show [_] = _
    rw [hsync, TokenStream.index_cursorAt i.isLt, TokenStream.index_cursorAt j.isLt,
      TokenStream.current_cursorAt j.isLt]
    rfl

end Session

end Lox

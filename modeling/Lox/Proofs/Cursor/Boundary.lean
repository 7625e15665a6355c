import Lox.Proofs.Cursor.Passing

/-!
# Statement boundaries

Where synchronization leads to depends on the tokens ahead alone: to the place behind the next
semicolon, or to the next token that begins a statement, but in any case behind the current token
(`rest_synchronize`).  From a place within a statement it leads to the place behind that statement
(`synchronize_eq`).
-/

namespace Lox

namespace Cursor

/-- What is left of the tokens at the first statement boundary. -/
def fromBoundary : List Token → List Token
  | [] => []
  | t :: ts =>
    if t.kind ∈ statementStarts then t :: ts
    else if t.kind = .semicolon then ts
    else fromBoundary ts

theorem fromBoundary_of_mem {t : Token} (h : t.kind ∈ statementStarts) (ts : List Token) :
    fromBoundary (t :: ts) = t :: ts :=
  if_pos h

/-- Tokens that do not begin a statement are left out up to the first semicolon. -/
theorem fromBoundary_append {us : List Token} {s : Token}
    (hus : ∀ t ∈ us, t.kind ∉ .semicolon :: statementStarts) (hs : s.kind = .semicolon)
    (ts : List Token) : fromBoundary (us ++ s :: ts) = ts := by
  induction us with
  | nil => simp [fromBoundary, hs, statementStarts]
  | cons u us ih =>
    obtain ⟨hu, hus⟩ := List.forall_mem_cons.1 hus
    rw [List.mem_cons, not_or] at hu
    rw [List.cons_append, fromBoundary, if_neg hu.2, if_neg hu.1, ih hus]

theorem fromBoundary_suffix (ts : List Token) : fromBoundary ts <:+ ts := by
  fun_induction fromBoundary ts with
  | case1 => exact List.suffix_rfl
  | case2 t ts h => exact List.suffix_rfl
  | case3 t ts h hs => exact List.suffix_cons t ts
  | case4 t ts h hs ih => exact ih.trans (List.suffix_cons t ts)

private theorem toBoundary_rest (x : Token) (passed rest : List Token) (eof : Token) :
    (toBoundary (x :: passed) rest eof).rest =
      if x.kind = .semicolon then rest else fromBoundary rest := by
  induction rest generalizing x passed with
  | nil => simp [toBoundary, fromBoundary]
  | cons t rest ih =>
    by_cases hx : x.kind = .semicolon
    · simp [toBoundary, hx]
    · by_cases ht : t.kind ∈ statementStarts
      · simp [toBoundary, fromBoundary, hx, ht, Token.isOneOf]
      · have hstep : toBoundary (x :: passed) (t :: rest) eof =
            toBoundary (t :: x :: passed) rest eof := by
          simp [toBoundary, hx, ht, Token.isOneOf]
        rw [hstep, ih, if_neg hx, fromBoundary, if_neg ht]

/-- The current token is passed without looking for a boundary in front of it. -/
theorem rest_synchronize {c : Cursor} {t : Token} {rest : List Token} (h : c.rest = t :: rest) :
    c.synchronize.rest = if t.kind = .semicolon then rest else fromBoundary rest := by
  unfold synchronize
  rw [h]
  exact toBoundary_rest t c.passed rest c.eof

/-- From a place within a statement synchronization goes to the place behind its semicolon. -/
theorem synchronize_eq {c d : Cursor} {x : Token} {ts : List Token} (hc : c.Passes (x :: ts) d)
    (hinit : ∀ t ∈ (x :: ts).dropLast, t.kind ≠ .semicolon)
    (hlast : ∀ t ∈ (x :: ts).getLast?, t.kind = .semicolon)
    (htail : ∀ t ∈ ts, t.kind ∉ statementStarts) : c.synchronize = d := by
  refine eq_of_le_of_rest_eq c.le_synchronize ⟨_, hc⟩ ?_
  have hrest : c.rest = x :: (ts ++ d.rest) := hc.1
  rw [rest_synchronize hrest]
  rcases List.eq_nil_or_concat ts with rfl | ⟨us, s, rfl⟩
  · rw [if_pos (hlast x rfl)]
    rfl
  · rw [List.concat_eq_append] at hinit hlast htail ⊢
    rw [← List.cons_append, List.dropLast_concat] at hinit
    have hs : s.kind = .semicolon := hlast s (by rw [← List.cons_append, List.getLast?_concat]; rfl)
    have hus : ∀ t ∈ us, t.kind ∉ .semicolon :: statementStarts := by
      intro t ht hk
      rcases List.mem_cons.1 hk with hk | hk
      · exact hinit t (List.mem_cons_of_mem x ht) hk
      · exact htail t (List.mem_append_left _ ht) hk
    rw [if_neg (hinit x (List.mem_cons_self ..)), List.append_assoc, List.singleton_append,
      fromBoundary_append hus hs]

end Cursor

end Lox

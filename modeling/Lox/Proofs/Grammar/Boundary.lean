import Lox.Proofs.Cursor.Boundary
import Lox.Proofs.Grammar.Semicolon

/-!
# Statement boundaries in programs

In a program the statement boundaries lie between the declarations: behind the first token of a
declaration other than a block the next one is the end of that declaration
(`Declaration.fromBoundary_append`).  So at the first boundary of a program that does not start with
a block there is a program (`Program.fromBoundary`).
-/

namespace Lox

namespace Tolerant

/-- What follows a regular declaration other than a block is what is left at the first statement
boundary behind its first token. -/
theorem Declaration.fromBoundary_append {room : Nat} {t : Token} {ts : List Token} {stmt : Stmt}
    {bad : List Token} (h : Declaration room (t :: ts) stmt bad) (ht : RegularTokens (t :: ts))
    (hhead : t.kind ≠ .openCurly) (us : List Token) :
    t.kind ≠ .semicolon ∧ Cursor.fromBoundary (ts ++ us) = us := by
  have hhead : HeadNotIn [.openCurly] (t :: ts) := by simpa using hhead
  obtain ⟨vs, s, hvs, hs, hno⟩ := h.eq_append_semicolon hhead
  have hlen := h.one_lt_length
  rw [hvs] at hlen ht
  obtain ⟨v, vs, rfl⟩ := List.exists_cons_of_ne_nil (l := vs) (by rintro rfl; simp at hlen)
  obtain ⟨rfl, rfl⟩ : t = v ∧ ts = vs ++ [s] := List.cons_eq_cons.1 hvs
  have hne : ∀ u ∈ t :: vs, u.kind ≠ .semicolon := by
    intro u hu hk
    exact hno u hu hk (ht.of_append.1.literal_eq_none hu (by simp [hk]) (by simp [hk]))
  refine ⟨hne t (List.mem_cons_self ..), ?_⟩
  rw [List.append_assoc]
  refine Cursor.fromBoundary_append (fun u hu hk => ?_) hs us
  have key : ∀ k ∈ TokenKind.number :: .string :: .semicolon :: expressionKinds,
      k ∉ Cursor.statementStarts := by decide
  have hmem := (h.kindsIn_tail hhead).kind_mem ht.of_cons u (List.mem_append_left _ hu)
  rcases List.mem_cons.1 hk with hk | hk
  · exact hne u (List.mem_cons_of_mem t hu) hk
  · exact key _ hmem hk

/-- At the first statement boundary of a regular program that does not start with a block there is
a program. -/
theorem Program.fromBoundary {stop : List TokenKind} {room : Nat} {ts : List Token}
    {body : List Stmt} (h : Program stop room ts body []) (ht : RegularTokens ts)
    (hhead : HeadNotIn [.openCurly] ts) :
    ∃ body', Program stop room (Cursor.fromBoundary ts) body' [] := by
  cases ts with
  | nil => exact ⟨body, h⟩
  | cons t ts =>
    by_cases hstart : t.kind ∈ Cursor.statementStarts
    · exact ⟨body, by rwa [Cursor.fromBoundary_of_mem hstart]⟩
    · obtain ⟨us, vs, first, rest, rfl, rfl, hdecl, hprogram⟩ := h.exists_cons
      rw [← List.cons_append] at ht
      obtain ⟨hs, hskip⟩ := hdecl.fromBoundary_append ht.of_append.1 (by simpa using hhead) vs
      exact ⟨rest, by rwa [Cursor.fromBoundary, if_neg hstart, if_neg hs, hskip]⟩

end Tolerant

end Lox

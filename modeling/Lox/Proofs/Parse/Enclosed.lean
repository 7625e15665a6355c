import Lox.Proofs.Parse.Complete

/-!
# Programs within programs

No declaration is the beginning of a longer one, because the parser reads one of them only
(`Declaration.eq_of_append_eq`).  So a program can be taken apart.  The key facts: what follows the
tokens of a program within a longer one is a program too (`Program.of_append`), and what stands in
braces within a program is a program with fewer levels (`Program.of_enclose`).
-/

namespace Lox

open Parse

namespace Tolerant

theorem Declaration.eq_of_append_eq {room room' : Nat} {ts ts' us us' : List Token} {s s' : Stmt}
    {bad bad' : List Token} (h : Declaration room ts s bad) (h' : Declaration room' ts' s' bad')
    (he : ts ++ us = ts' ++ us') : ts = ts' ∧ s = s' := by
  have hc : (⟨[], ts ++ us, .plain .eof⟩ : Cursor).Passes ts ⟨ts.reverse, us, .plain .eof⟩ :=
    ⟨rfl, by simp, rfl⟩
  have hc' : (⟨[], ts ++ us, .plain .eof⟩ : Cursor).Passes ts' ⟨ts'.reverse, us', .plain .eof⟩ :=
    ⟨he, by simp, rfl⟩
  -- with enough levels for both, the parser reads both
  obtain ⟨notes, -, hrun⟩ := yields_declaration (h.mono (Nat.le_max_left room room')) hc
  obtain ⟨notes', -, hrun'⟩ := yields_declaration (h'.mono (Nat.le_max_right room room')) hc'
  rw [hrun] at hrun'
  injection hrun' with hresult hcursor
  injection hcursor with hpassed
  injection hresult with hstmt
  exact ⟨List.reverse_inj.1 hpassed, Option.some.inj hstmt⟩

/-! ### Programs in a row -/

section Program

variable {stop stop' : List TokenKind} {room room' : Nat} {ts us : List Token}
  {body body' : List Stmt} {bad bad' : List Token}

/-- Regular tokens of a program may stand in a block. -/
theorem Program.closed (h : Program stop room ts body bad) (ht : RegularTokens ts) :
    Program [.closeCurly] room ts body bad := by
  have hrow := h.row
  clear h
  induction hrow with
  | nil => exact .nil
  | cons hitem _ ih =>
    exact .cons hitem.1 (hitem.1.headNotIn_closeCurly ht.of_append.1) (ih ht.of_append.2)

theorem Program.of_subset (h : Program stop room ts body bad) (hs : stop' ⊆ stop) :
    Program stop' room ts body bad := by
  have hrow := h.row
  clear h
  induction hrow with
  | nil => exact .nil
  | cons hitem _ ih => exact .cons hitem.1 (hitem.2.of_subset hs) ih

/-- If a program begins with the tokens of another one, then it begins with its statements. -/
theorem Program.of_append (h : Program stop' room' ts body bad)
    (h' : Program stop room (ts ++ us) body' bad') :
    ∃ body₁ bad₀ bad₁, body' = body ++ body₁ ∧ Program stop room ts body bad₀ ∧
      Program stop room us body₁ bad₁ := by
  have hrow := h.row
  clear h
  induction hrow generalizing body' bad' with
  | nil => exact ⟨body', [], bad', rfl, .nil, h'⟩
  | @cons ts₁ s₁ bad₁ ts₂ body₂ bad₂ hitem _ ih =>
    generalize hts : ts₁ ++ ts₂ ++ us = ts at h'
    cases h' with
    | nil => simp [hitem.1.ne_nil] at hts
    | @cons _ _ ts₃ s₃ bad₃ us₃ body₃ bad₄ hdecl hhead hprogram =>
      rw [List.append_assoc] at hts
      obtain ⟨rfl, rfl⟩ := hitem.1.eq_of_append_eq hdecl hts
      rw [← List.append_cancel_left hts] at hprogram
      obtain ⟨body₁, bad₅, bad₆, rfl, hfirst, hsecond⟩ := ih hprogram
      exact ⟨body₁, _, bad₆, rfl, .cons hdecl hhead hfirst, hsecond⟩

end Program

/-! ### Programs in braces -/

/-- The tokens in pairs of braces, the outermost pair first. -/
def enclose : (braces : List (Token × Token)) → List Token → List Token
  | [], ts => ts
  | b :: braces, ts => b.1 :: enclose braces ts ++ [b.2]

/-- Pairs of an opening and a closing brace. -/
def Braces (braces : List (Token × Token)) : Prop :=
  ∀ b ∈ braces, b.1.kind = .openCurly ∧ b.2.kind = .closeCurly

instance (braces : List (Token × Token)) : Decidable (Braces braces) :=
  inferInstanceAs (Decidable (∀ b ∈ braces, _))

/-- The statements in blocks, each of which is the only statement of the next. -/
def nest : (depth : Nat) → List Stmt → List Stmt
  | 0, body => body
  | depth + 1, body => [.block (nest depth body)]

theorem Braces.of_cons {b : Token × Token} {braces : List (Token × Token)}
    (h : Braces (b :: braces)) :
    (b.1.kind = .openCurly ∧ b.2.kind = .closeCurly) ∧ Braces braces :=
  List.forall_mem_cons.1 h

variable {room : Nat} {ts : List Token} {body : List Stmt} {bad : List Token}
  {braces : List (Token × Token)}

theorem Program.enclose (h : Program [.closeCurly] room ts body bad) (hb : Braces braces) :
    Program [.closeCurly] (room + braces.length) (enclose braces ts) (nest braces.length body)
      bad := by
  induction braces with
  | nil => exact h
  | cons b braces ih =>
    obtain ⟨⟨ho, hc⟩, hb⟩ := hb.of_cons
    have block : Declaration (room + braces.length + 1) (b.1 :: Tolerant.enclose braces ts ++ [b.2])
        (.block (nest braces.length body)) bad := .block ho (ih hb) hc
    have hhead : HeadNotIn [.closeCurly] (b.1 :: Tolerant.enclose braces ts ++ [b.2]) := by
      simp [ho]
    exact block.program hhead

/-- A declaration that starts with an opening brace is a block. -/
private theorem Declaration.program_of_block {o c : Token} {s : Stmt} (ho : o.kind = .openCurly)
    (h : Declaration room (o :: ts ++ [c]) s bad) :
    ∃ r body, room = r + 1 ∧ Program [.closeCurly] r ts body bad := by
  generalize hts : o :: ts ++ [c] = us at h
  cases h with
  | var hk _ _ => simp_all
  | init hk _ _ _ _ => simp_all
  | print hk _ _ => simp_all
  | block _ h _ =>
    obtain ⟨-, hts⟩ := List.cons_eq_cons.1 hts
    obtain ⟨rfl, -⟩ := List.append_inj' hts rfl
    exact ⟨_, _, rfl, h⟩
  | expression h hn _ =>
    obtain ⟨t, vs, rfl⟩ := List.exists_cons_of_ne_nil h.ne_nil
    obtain ⟨rfl, -⟩ := List.cons_eq_cons.1 hts
    exact absurd (by simp [ho, statementKinds]) (headNotIn_cons.1 hn)

/-- What stands in braces within a program is a program, and there is a level for each pair. -/
theorem Program.of_enclose {stop : List TokenKind} {room' : Nat} {body' : List Stmt}
    {bad' : List Token} (h : Program [.closeCurly] room' ts body' bad') (hb : Braces braces)
    (h' : Program stop room (Tolerant.enclose braces ts) body bad) :
    ∃ r stop body bad, room = r + braces.length ∧ Program stop r ts body bad := by
  induction braces generalizing room stop body bad with
  | nil => exact ⟨room, stop, body, bad, rfl, h'⟩
  | cons b braces ih =>
    obtain ⟨⟨ho, hc⟩, hb⟩ := hb.of_cons
    have block : Declaration (room' + braces.length + 1)
        (b.1 :: Tolerant.enclose braces ts ++ [b.2]) (.block (nest braces.length body')) bad' :=
      .block ho (h.enclose hb) hc
    generalize hts : Tolerant.enclose (b :: braces) ts = us at h'
    have hts : (b.1 :: Tolerant.enclose braces ts ++ [b.2]) ++ [] = us := by
      rw [List.append_nil]
      exact hts
    cases h' with
    | nil => simp at hts
    | cons hdecl _ _ =>
      -- the first declaration is the outermost block, so nothing follows it
      obtain ⟨rfl, -⟩ := block.eq_of_append_eq hdecl hts
      obtain ⟨r, body₁, rfl, hprogram⟩ := hdecl.program_of_block ho
      obtain ⟨r, stop, body₂, bad₂, rfl, hin⟩ := ih hb hprogram
      exact ⟨r, stop, body₂, bad₂, rfl, hin⟩

end Tolerant

end Lox

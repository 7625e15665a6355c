import Lox.Session
import Lox.Proofs.Parse.Stream

/-!
# Lines and expression statements

A line of a prompt is a single expression.  A stream is a line to its end if and only if its tokens
are derived as an expression (`TokenStream.isLine_iff_derives`), and with a semicolon behind them it
is then the program of this one expression statement.  The key fact: this is so for every
well-formed stream, and where more tokens follow, a line goes as far as it can
(`TokenStream.isLine_iff_parse`).
-/

namespace Lox

open Parse

namespace TokenStream

/-- What a session gives and keeps when it reads the stream as a line. -/
def readLine (s : TokenStream) : Session × Except Fault Reading :=
  (Session.ofStream s).read .line

/-- The stream is the expression `e` to its end, and nothing is reported. -/
structure IsLine (s : TokenStream) (e : Expr) : Prop where
  answer : s.readLine.2 = .ok (.line (some e))
  diagnostics : s.readLine.1.diagnostics = []
  atEnd : s.readLine.1.cursor.atEnd = true

/-- The stream with a further token at its end. -/
def terminated (s : TokenStream) (t : Token) : TokenStream :=
  ⟨s.body ++ [t], s.last, s.last_kind⟩

/-- The first `n` tokens, closed by the end of the stream. -/
def upTo (s : TokenStream) (n : Nat) : TokenStream :=
  ⟨s.body.take n, s.last, s.last_kind⟩

variable {s : TokenStream} {e : Expr} {d : Cursor} {notes : List Note}

/-! ### Runs -/

theorem readLine_of_ok (h : expression maxNesting .assignment s.cursor = ⟨.ok e, d, notes⟩) :
    s.readLine =
      ({ cursor := d, diagnostics := Note.diagnostics notes }, .ok (.line (some e))) := by
  rw [← expression_default] at h
  have key : (Reading.line <$> Parse.line maxNesting) s.cursor =
      ⟨.ok (.line (some e)), d, notes ++ []⟩ := bind_apply_of_ok (noting_of_ok h)
  rw [List.append_nil] at key
  show (Session.ofStream s).run (fun room => Reading.line <$> Parse.line room) = _
  simp only [Session.run, Session.ofStream, Nat.sub_zero, key, List.nil_append]

theorem readLine_of_error {f : Fault}
    (h : expression maxNesting .assignment s.cursor = ⟨.error f, d, notes⟩) :
    s.readLine.2 = .ok (.line none) := by
  rw [← expression_default] at h
  have key : (Reading.line <$> Parse.line maxNesting) s.cursor =
      ⟨.ok (.line none), d, notes ++ [.fault f] ++ []⟩ := bind_apply_of_ok (noting_of_error h)
  show ((Session.ofStream s).run (fun room => Reading.line <$> Parse.line room)).2 = _
  simp only [Session.run, Session.ofStream, Nat.sub_zero, key]

/-- A line that is read without a diagnostic is derived, and no token follows that goes on it. -/
theorem exists_derives_of_readLine (hc : s.cursor.Closed)
    (h : s.readLine.2 = .ok (.line (some e))) (hd : s.readLine.1.diagnostics = []) :
    ∃ ts, s.cursor.Passes ts s.readLine.1.cursor ∧
      Tolerant.Derives maxNesting .assignment ts e [] ∧
      s.readLine.1.cursor.isAt Precedence.assignment.joining = false := by
  rcases hrun : expression maxNesting .assignment s.cursor with ⟨f | e', d, notes⟩
  · rw [readLine_of_error hrun] at h
    cases h
  · have hread := readLine_of_ok hrun
    obtain ⟨ts, bad, hpass, hderives, hn, hend⟩ := exists_of_expression hc hrun
    rw [hread] at h hd ⊢
    cases h
    -- a misplaced equals sign would have been reported
    have hbad : bad = [] := List.map_eq_nil_iff.1 (hn.diagnostics_eq.symm.trans hd)
    exact ⟨ts, hpass, hbad ▸ hderives, hend⟩

/-! ### Derivations -/

theorem isLine_of_derives (he : ∀ t ∈ s.body, t.kind ≠ .eof)
    (h : Tolerant.Derives maxNesting .assignment s.body e []) : s.IsLine e := by
  obtain ⟨notes, hn, hrun⟩ := yields_expression h (passes_body he) rfl
  have hread := readLine_of_ok hrun
  refine ⟨by rw [hread], ?_, by rw [hread]; rfl⟩
  rw [hread]
  exact hn.diagnostics_eq

/-- The lines are the expressions without misplaced equals signs. -/
theorem isLine_iff_derives (hs : s.WellFormed) :
    s.IsLine e ↔ Tolerant.Derives maxNesting .assignment s.body e [] := by
  constructor
  · rintro ⟨hanswer, hdiagnostics, hend⟩
    obtain ⟨ts, hpass, hderives, -⟩ :=
      exists_derives_of_readLine (closed_cursor hs.kind_ne_eof hs.last) hanswer hdiagnostics
    have hrest := hpass.1
    rw [List.isEmpty_iff.1 hend, List.append_nil, cursor_eq hs.kind_ne_eof] at hrest
    have hbody : s.body = ts := hrest
    rwa [hbody]
  · exact isLine_of_derives hs.kind_ne_eof

theorem WellFormed.terminated (hs : s.WellFormed) {t : Token} (hk : t.kind = .semicolon)
    (hl : t.literal = none) : (s.terminated t).WellFormed := by
  refine ⟨hs.body.append fun u hu => ?_, hs.last⟩
  rw [List.mem_singleton.1 hu]
  exact ⟨by simp [hk], by simp [Token.Regular, hk, hl]⟩

theorem WellFormed.upTo (hs : s.WellFormed) (n : Nat) : (s.upTo n).WellFormed :=
  ⟨fun t ht => hs.body t (List.mem_of_mem_take ht), hs.last⟩

/-- Statements of other kinds do not start like an expression. -/
private theorem parse_terminated_iff (hs : s.WellFormed) {t : Token} (hk : t.kind = .semicolon)
    (hl : t.literal = none) :
    ((s.terminated t).parse.program = [.expression e] ∧ (s.terminated t).parse.diagnostics = []) ↔
      Tolerant.Derives maxNesting .assignment s.body e [] := by
  have hst := hs.terminated hk hl
  constructor
  · rintro ⟨hprogram, hdiagnostics⟩
    have hdecl := program_of_diagnostics_eq_nil hst.kind_ne_eof hst.last hdiagnostics
    rw [hprogram] at hdecl
    have hdecl := hdecl.declaration
    generalize hts : (s.terminated t).body = ts at hdecl
    cases hdecl with
    | expression h _ _ =>
      obtain ⟨hbody, -⟩ := List.append_inj' hts rfl
      rwa [hbody]
  · intro h
    have hdecl : Grammar.Declaration maxNesting (s.terminated t).body (.expression e) :=
      .expression h.strict hk
    obtain ⟨hprogram, hnotes⟩ := parse_of_program hst.kind_ne_eof
      ((hdecl.tolerant hst.body).program (by simp [Tolerant.HeadNotIn]))
    exact ⟨hprogram, hnotes.diagnostics_eq⟩

/-- Behind the line there is a token that does not go on it, or none at all. -/
private theorem index_of_isLine_upTo (hs : s.WellFormed) {ts : List Token}
    (hpass : s.cursor.Passes ts d) (h : Tolerant.Derives maxNesting .assignment ts e [])
    (hd : d.isAt Precedence.assignment.joining = false) :
    (s.upTo d.index).IsLine e ∧
      ∀ m e', m ≤ s.body.length → (s.upTo m).IsLine e' → m ≤ d.index := by
  have hindex : d.index = ts.length := by
    rw [hpass.index]
    simp [TokenStream.cursor, Cursor.index]
  have hbody : s.body = ts ++ d.rest := by
    have hrest := hpass.1
    rwa [cursor_eq hs.kind_ne_eof] at hrest
  constructor
  · have htake : (s.upTo d.index).body = ts := by
      show s.body.take d.index = ts
      rw [hindex, hbody, List.take_left]
    exact isLine_of_derives (hs.upTo d.index).kind_ne_eof (htake ▸ h)
  · intro m e' hm hline
    by_contra hlt
    rw [hindex, Nat.not_le] at hlt
    rw [hbody, List.length_append] at hm
    obtain ⟨u, rest, hrest⟩ : ∃ u rest, d.rest = u :: rest :=
      List.exists_cons_of_length_pos (by omega)
    obtain ⟨k, hk⟩ : ∃ k, m - ts.length = k + 1 := Nat.exists_eq_add_one.2 (by omega)
    have htake : (s.upTo m).cursor.rest = ts ++ u :: rest.take k := by
      rw [cursor_eq (hs.upTo m).kind_ne_eof]
      show s.body.take m = _
      rw [hbody, List.take_append, List.take_of_length_le (by omega), hk, hrest, List.take_succ_cons]
    -- the line ends at the same token as before, in front of the end
    have hpass' := Cursor.passes_of_rest htake
    have hend : (⟨ts.reverse ++ (s.upTo m).cursor.passed, u :: rest.take k,
        (s.upTo m).cursor.eof⟩ : Cursor).isAt Precedence.assignment.joining = false := by
      rw [← hd, Cursor.isAt, Cursor.isAt, hrest]
      rfl
    obtain ⟨notes, -, hrun⟩ := yields_expression h hpass' hend
    have hatEnd := hline.atEnd
    rw [readLine_of_ok hrun] at hatEnd
    cases hatEnd

/-- A well-formed stream is the line of an expression to its end if and only if with a semicolon
behind it it is the program of this expression statement alone.  And where a line is read without a
diagnostic, the tokens that are passed are a line by themselves, and no longer beginning of the
stream is one. -/
theorem isLine_iff_parse (hs : s.WellFormed) {t : Token} (hk : t.kind = .semicolon)
    (hl : t.literal = none) :
    (∀ e, s.IsLine e ↔
      (s.terminated t).parse.program = [.expression e] ∧
        (s.terminated t).parse.diagnostics = []) ∧
    ∀ e, s.readLine.2 = .ok (.line (some e)) → s.readLine.1.diagnostics = [] →
      (s.upTo s.readLine.1.cursor.index).IsLine e ∧
      ∀ m e', m ≤ s.body.length → (s.upTo m).IsLine e' → m ≤ s.readLine.1.cursor.index := by
  refine ⟨fun e => (isLine_iff_derives hs).trans (parse_terminated_iff hs hk hl).symm, ?_⟩
  intro e hanswer hdiagnostics
  obtain ⟨ts, hpass, hderives, hend⟩ :=
    exists_derives_of_readLine (closed_cursor hs.kind_ne_eof hs.last) hanswer hdiagnostics
  exact index_of_isLine_upTo hs hpass hderives hend

/-- In `nil + nil nil` the line goes up to the second `nil`; these three tokens are a line to their
end. -/
theorem isLine_iff_parse_sum :
    let e : Expr := .binary (.literal .nil) (.plain .plus) (.literal .nil)
    let s : TokenStream := ⟨[.plain .kwNil, .plain .plus, .plain .kwNil], .plain .eof, rfl⟩
    let t : TokenStream :=
      ⟨[.plain .kwNil, .plain .plus, .plain .kwNil, .plain .kwNil], .plain .eof, rfl⟩
    (s.WellFormed ∧ s.IsLine e ∧ (s.terminated (.plain .semicolon)).parse.program =
      [.expression e] ∧ (s.terminated (.plain .semicolon)).parse.diagnostics = []) ∧
    (t.WellFormed ∧ t.readLine.2 = .ok (.line (some e)) ∧ t.readLine.1.diagnostics = [] ∧
      t.readLine.1.cursor.index = 3 ∧ (t.upTo 3).IsLine e ∧
      ∀ m e', m ≤ 4 → (t.upTo m).IsLine e' → m ≤ 3) := by
  intro e s t
  have hs : s.WellFormed := ⟨by decide, rfl⟩
  have ht : t.WellFormed := ⟨by decide, rfl⟩
  have operand : Tolerant.Derives maxNesting .factor [.plain .kwNil] (.literal .nil) [] :=
    .next (by decide) (.operand (.nil rfl rfl) (by simp [Tolerant.prefixOperators, Token.plain]))
  have left : Tolerant.Derives maxNesting .term [.plain .kwNil] (.literal .nil) [] :=
    .next (by decide) operand
  have sum : Tolerant.Derives maxNesting .term s.body e [] := left.binary (by decide) operand
  have value : Tolerant.Derives maxNesting .assignment s.body e [] :=
    .next (by decide) (.next (by decide) (.next (by decide) sum))
  constructor
  · have hline : s.IsLine e := isLine_of_derives hs.kind_ne_eof value
    exact ⟨hs, hline, ((isLine_iff_parse hs rfl rfl).1 e).1 hline⟩
  · have hpass : t.cursor.Passes s.body ⟨s.body.reverse, [.plain .kwNil], .plain .eof⟩ :=
      ⟨rfl, rfl, rfl⟩
    obtain ⟨notes, -, hrun⟩ := yields_expression value hpass rfl
    have hanswer : t.readLine.2 = .ok (.line (some e)) := by rw [readLine_of_ok hrun]
    have hdiagnostics : t.readLine.1.diagnostics = [] := by decide +kernel
    have hindex : t.readLine.1.cursor.index = 3 := by decide +kernel
    have key := (isLine_iff_parse ht (t := .plain .semicolon) rfl rfl).2 e hanswer hdiagnostics
    rw [hindex] at key
    exact ⟨ht, hanswer, hdiagnostics, hindex, key⟩

end TokenStream

end Lox

import Lox.Proofs.Grammar.Boundary
import Lox.Proofs.Parse.Ahead
import Lox.Proofs.Parse.Recovery

/-!
# Statements without their semicolon

Where the semicolon of a statement is missing, the statement is left out, and so is the token that
stands in place of the semicolon, whatever it is: synchronization passes it before it looks for a
boundary.  Reading goes on at the next statement boundary as if there were nothing in between
(`many_item_unterminated`).  So if the next statement begins with a keyword, it is lost
(`unterminated_loses_next`), and if the block ends, it is left open
(`unterminated_leaves_block_open`).
-/

namespace Lox

/-- What is reported where the semicolon of a statement is missing.  A block has none. -/
def Stmt.missingSemicolon? : Stmt → Option Cause
  | .expression _ => some (.expectedToken ";" "Expect ';' after expression.")
  | .print _ => some (.expectedToken ";" "Expect ';' after value.")
  | .varDecl _ _ => some (.expectedToken ";" "Expect ';' after variable declaration.")
  | .block _ => none

open Tolerant

/-- The tokens `b` lack nothing but a semicolon to be a statement, and `q`, which stands in place of
it, does not go on the statement. -/
structure Unterminated (room : Nat) (b : List Token) (q : Token) (cause : Cause) : Prop where
  statement : ∃ s stmt, Declaration room (b ++ [s]) stmt [] ∧ stmt.missingSemicolon? = some cause
  behind : q.kind ∉ .semicolon :: Precedence.assignment.joining

theorem Unterminated.ne_nil {room : Nat} {b : List Token} {q : Token} {cause : Cause}
    (h : Unterminated room b q cause) : b ≠ [] := by
  rintro rfl
  obtain ⟨s, stmt, hdecl, -⟩ := h.statement
  exact absurd hdecl.one_lt_length (by simp)

namespace Parse

variable {room : Nat} {b : List Token} {q : Token} {cause : Cause} {c d : Cursor}

private theorem fails_terminated {ts bad : List Token} {e : Expr} (message : String)
    (f : Expr → Stmt) (h : Derives room .assignment ts e bad) (hc : c.Passes ts d)
    (hd : d.isAt (.semicolon :: Precedence.assignment.joining) = false) :
    Fails (expression room .assignment >>= fun e => expect .semicolon message >>= fun _ =>
      pure (f e)) c (.expectedToken TokenKind.semicolon.text message) bad d := by
  have hend := Cursor.isAt_eq_false_of_subset hd (List.subset_cons_self _ _)
  have hs : d.isAt [.semicolon] = false := Cursor.isAt_eq_false_of_subset hd (by simp)
  exact (yields_expression h hc hend).bind_fails_nil ((fails_expect message hs).bind _)

/-- Without its semicolon a statement is left out at the token that stands in place of it. -/
theorem fails_unterminated {s : Token} {stmt : Stmt} {bad : List Token}
    (h : Declaration room (b ++ [s]) stmt bad) (hm : stmt.missingSemicolon? = some cause)
    (hc : c.Passes b d)
    (hd : d.isAt (.semicolon :: Precedence.assignment.joining) = false) :
    Fails (leading room c.current.kind) c cause bad d := by
  generalize hts : b ++ [s] = ts at h
  cases h with
  | @var _ k n _ hk hn hs =>
    obtain ⟨rfl, -⟩ : b = [k, n] ∧ _ := List.append_inj' hts rfl
    cases hm
    obtain ⟨c₁, hc₁, hc₁d⟩ := Cursor.passes_cons_iff.1 hc
    have hq : d.isAt [.assignment] = false := Cursor.isAt_eq_false_of_subset hd (by decide)
    have hs : d.isAt [.semicolon] = false := Cursor.isAt_eq_false_of_subset hd (by simp)
    rw [hc₁.current_eq, hk, leading_kwVar]
    exact (yields_skip hc₁).bind_fails_nil <| (yields_expect _ hc₁d hn).bind_fails_nil <|
      (yields_initializer_none hq).bind_fails_nil ((fails_expect _ hs).bind _)
  | @init _ k n q ts e _ _ hk hn hq h hs =>
    obtain ⟨rfl, -⟩ : b = k :: n :: q :: ts ∧ _ := List.append_inj' hts rfl
    cases hm
    obtain ⟨c₁, hc₁, hc₁d⟩ := Cursor.passes_cons_iff.1 hc
    obtain ⟨c₂, hc₂, hc₂d⟩ := Cursor.passes_cons_iff.1 hc₁d
    obtain ⟨c₃, hc₃, hc₃d⟩ := Cursor.passes_cons_iff.1 hc₂d
    have hend := Cursor.isAt_eq_false_of_subset hd (List.subset_cons_self _ _)
    have hs : d.isAt [.semicolon] = false := Cursor.isAt_eq_false_of_subset hd (by simp)
    have value := yields_initializer hc₃ hq (yields_expression h hc₃d hend)
    rw [hc₁.current_eq, hk, leading_kwVar]
    exact (yields_skip hc₁).bind_fails <| (yields_expect _ hc₂ hn).bind_fails <|
      value.bind_fails_nil ((fails_expect _ hs).bind _)
  | @print _ k ts e _ _ hk h hs =>
    obtain ⟨rfl, -⟩ := List.append_inj' hts rfl
    cases hm
    obtain ⟨c₁, hc₁, hc₁d⟩ := Cursor.passes_cons_iff.1 hc
    rw [hc₁.current_eq, hk, leading_kwPrint]
    exact (yields_skip hc₁).bind_fails (fails_terminated _ .print h hc₁d hd)
  | block => cases hm
  | @expression _ ts e _ _ h hn hs =>
    obtain ⟨rfl, -⟩ := List.append_inj' hts rfl
    cases hm
    obtain ⟨t, us, rfl⟩ := List.exists_cons_of_ne_nil h.ne_nil
    obtain ⟨c₁, hc₁, -⟩ := Cursor.passes_cons_iff.1 hc
    rw [hc₁.current_eq, leading_of_not_mem room (headNotIn_cons.1 hn)]
    exact fails_terminated _ .expression h hc hd

/-- The token in place of the semicolon is passed, and what follows it up to the next statement
boundary is left out with the statement. -/
theorem declaration_unterminated (h : Unterminated room b q cause) {c₁ : Cursor}
    (hc : c.Passes b c₁) (hd : c₁.Passes [q] d) :
    ∃ e notes, Note.Dropped notes [] cause q ∧ c₁ ≤ e ∧
      e.rest = Cursor.fromBoundary d.rest ∧ e.eof = d.eof ∧
      declaration .standard room c = ⟨.ok none, e, notes⟩ := by
  obtain ⟨⟨s, stmt, hdecl, hm⟩, hq⟩ := h
  obtain ⟨notes, hn, hrun⟩ := fails_unterminated hdecl hm hc (hd.isAt_eq_false hq)
  have hrest : c₁.synchronize.rest = Cursor.fromBoundary d.rest := by
    rw [Cursor.rest_synchronize hd.1, if_neg fun hk => hq (by simp [hk])]
    rfl
  have heof : c₁.synchronize.eof = d.eof := by rw [Cursor.eof_synchronize, hd.2.2]
  have hrec := recovering_of_error hrun
  rw [← declaration_apply] at hrec
  exact ⟨_, _, ⟨notes, c₁.site, _, _, _, hn, hd.current_eq, rfl⟩, c₁.le_synchronize, hrest, heof,
    hrec⟩

/-- Behind a program a statement without its semicolon is reported, and then the repetition goes on
as if there were nothing in between. -/
theorem many_item_unterminated {stop : Cursor → Bool} {kinds : List TokenKind}
    (hs : Stops stop kinds) {P : List Token} {body : List Stmt} (hP : Program kinds room P body [])
    (h : Unterminated room b q cause) (hhead : HeadNotIn kinds b)
    (hc : c.Passes (P ++ b ++ [q]) d) {c' d' : Cursor} (hc' : c'.Passes P d')
    (hrest : d'.rest = Cursor.fromBoundary d.rest) (heof : d'.eof = d.eof) :
    ∃ os os' e e' notes notes', many (item stop room) c = ⟨.ok os, e, notes⟩ ∧
      many (item stop room) c' = ⟨.ok os', e', notes'⟩ ∧ os.reduceOption = os'.reduceOption ∧
      e.SameAhead e' ∧
      Note.diagnostics notes = .atToken cause q :: Note.diagnostics notes' := by
  obtain ⟨c₂, hc₂, hqd⟩ := Cursor.passes_append_iff.1 hc
  obtain ⟨c₁, hPc, hb⟩ := Cursor.passes_append_iff.1 hc₂
  obtain ⟨n₁, hn₁, hrun₁⟩ := many_item_of_program hs hP hPc
  obtain ⟨n₂, hn₂, hrun₂⟩ := many_item_of_program hs hP hc'
  obtain ⟨e₁, n, hn, hle, he₁, heof₁, hdecl⟩ := declaration_unterminated h hb hqd
  have hstop : stop c₁ = false := by
    obtain ⟨x, xs, rfl⟩ := List.exists_cons_of_ne_nil h.ne_nil
    obtain ⟨c₃, hx, -⟩ := Cursor.passes_cons_iff.1 hb
    exact hs.eq_false_of_passes hx (headNotIn_cons.1 hhead)
  have hlen : e₁.rest.length < c₁.rest.length := by
    have hpos := List.length_pos_iff.2 h.ne_nil
    have hpassed := hb.length_rest
    have hrecovered := Cursor.length_rest_le hle
    omega
  -- from here on both repetitions have the same tokens ahead
  have hahead : e₁.SameAhead d' := ⟨he₁.trans hrest.symm, heof₁.trans heof.symm⟩
  have halike := (alike_item hs room).many e₁ d' hahead
  obtain ⟨os, hos⟩ := (settled_item stop room).many e₁
  rcases hrun : many (item stop room) e₁ with ⟨f | os, e, n₃⟩
  · rw [hrun] at hos
    cases hos
  · rw [hrun] at halike
    obtain ⟨e', n₄, hrun', hee', hn₃⟩ := halike.exists_of_ok
    rw [many_of_some (item_apply hstop hdecl) hlen, hrun] at hrun₁
    rw [hrun'] at hrun₂
    refine ⟨_, _, _, _, _, _, hrun₁, hrun₂, ?_, hee', ?_⟩
    · simp [List.reduceOption_append, List.reduceOption_cons_of_none]
    · rw [hn₁.eq_nil, hn₂.eq_nil, List.nil_append, List.nil_append, Note.diagnostics_append,
        hn.diagnostics_eq, hn₃]
      rfl

/-! ### In a block -/

/-- A block passes its opening brace. -/
private theorem length_rest_item {o : Token} (ho : o.kind = .openCurly) (hc : c.Passes [o] d) :
    (item Cursor.atEnd (room + 1) c).cursor.rest.length < c.rest.length := by
  have hbody : Forward (many (item blockEnd room) >>= fun body =>
      expect .closeCurly "Expect '\x7d' after block." >>= fun _ =>
        pure (.block body.reduceOption : Stmt)) :=
    (forward_item _ _).many.bind fun _ => (forward_expect _ _).bind fun _ => forward_pure _
  have hle : d ≤ (leading (room + 1) .openCurly c).cursor := by
    rw [leading_openCurly, bind_apply_of_ok (skip_of_passes hc)]
    exact hbody d
  have hrec : d ≤ (declaration .standard (room + 1) c).cursor := by
    rw [declaration_apply, hc.current_eq, ho]
    rcases hrun : leading (room + 1) .openCurly c with ⟨f | s, e, notes⟩ <;> rw [hrun] at hle
    · rw [recovering_of_error hrun]
      exact Cursor.le_trans hle e.le_synchronize
    · rw [recovering_of_ok hrun]
      exact hle
  have hlen := Cursor.length_rest_le hrec
  rw [cursor_item hc.atEnd_eq, hc.length_rest]
  simp only [List.length_singleton]
  omega

section Block

variable {P : List Token} {body : List Stmt} {o : Token} {c' d' : Cursor}

/-- In a block a statement without its semicolon is reported, and then the block goes on as if
there were nothing in between. -/
theorem leading_unterminated (hP : Program [.closeCurly] room P body [])
    (h : Unterminated room b q cause) (hhead : HeadNotIn [.closeCurly] b)
    (hc : c.Passes (o :: (P ++ b ++ [q])) d) (hc' : c'.Passes (o :: P) d')
    (hrest : d'.rest = Cursor.fromBoundary d.rest) (heof : d'.eof = d.eof) :
    (leading (room + 1) .openCurly c).Agrees [.atToken cause q]
      (leading (room + 1) .openCurly c') := by
  obtain ⟨c₁, hc₁, hd⟩ := Cursor.passes_cons_iff.1 hc
  obtain ⟨c₁', hc₁', hd'⟩ := Cursor.passes_cons_iff.1 hc'
  obtain ⟨os, os', e, e', notes, notes', hrun, hrun', hos, hee', hn⟩ :=
    many_item_unterminated stops_blockEnd hP h hhead hd hd' hrest heof
  rw [leading_openCurly, bind_apply_of_ok (skip_of_passes hc₁), bind_apply_of_ok hrun,
    bind_apply_of_ok (skip_of_passes hc₁'), bind_apply_of_ok hrun', hos]
  have close := respects_alike.expect .closeCurly "Expect '\x7d' after block." e e' hee'
  exact (Agrees.bind close fun _ => alike_pure (Stmt.block os'.reduceOption)).append hn

theorem program_unterminated (ho : o.kind = .openCurly)
    (hP : Program [.closeCurly] room P body []) (h : Unterminated room b q cause)
    (hhead : HeadNotIn [.closeCurly] b)
    (hc : c.Passes (o :: (P ++ b ++ [q])) d) (hc' : c'.Passes (o :: P) d')
    (hrest : d'.rest = Cursor.fromBoundary d.rest) (heof : d'.eof = d.eof) :
    (program .standard (room + 1) c).Agrees [.atToken cause q]
      (program .standard (room + 1) c') := by
  obtain ⟨c₁, hc₁, -⟩ := Cursor.passes_cons_iff.1 hc
  obtain ⟨c₁', hc₁', -⟩ := Cursor.passes_cons_iff.1 hc'
  have hdecl : (declaration .standard (room + 1) c).Agrees [.atToken cause q]
      (declaration .standard (room + 1) c') := by
    rw [declaration_apply, declaration_apply, hc₁.current_eq, hc₁'.current_eq, ho]
    exact Agrees.recovering (leading_unterminated hP h hhead hc hc' hrest heof)
  have hitem : (item Cursor.atEnd (room + 1) c).Agrees [.atToken cause q]
      (item Cursor.atEnd (room + 1) c') := by
    unfold item
    rw [hc₁.atEnd_eq, hc₁'.atEnd_eq]
    exact Agrees.bind hdecl fun _ => alike_pure _
  have hmany := Agrees.many (alike_item stops_atEnd (room + 1)) hitem (length_rest_item ho hc₁)
    (length_rest_item ho hc₁')
  rw [program_eq]
  exact Agrees.bind hmany fun _ => alike_pure _

/-- A block that is never closed is left out as a whole. -/
theorem declaration_unclosed (ho : o.kind = .openCurly) (hP : Program [.closeCurly] room P body [])
    (hc : c.Passes (o :: P) d) (hd : d.rest = []) :
    ∃ notes, Note.Dropped notes [] (.expectedToken "\x7d" "Expect '\x7d' after block.") d.eof ∧
      declaration .standard (room + 1) c = ⟨.ok none, d, notes⟩ := by
  obtain ⟨c₁, hc₁, hc₁d⟩ := Cursor.passes_cons_iff.1 hc
  have hstop : blockEnd d = true := by simp [blockEnd, Cursor.atEnd, hd]
  have hclose : d.isAt [.closeCurly] = false := by simp [Cursor.isAt, hd]
  have hlead : Fails (leading (room + 1) .openCurly) c
      (.expectedToken "\x7d" "Expect '\x7d' after block.") [] d := by
    rw [leading_openCurly]
    exact (yields_skip hc₁).bind_fails_nil <|
      (yields_items stops_blockEnd hP hc₁d hstop).bind_fails_nil ((fails_expect _ hclose).bind _)
  obtain ⟨notes, hn, hrun⟩ := hlead
  have hsync : d.synchronize = d := by simp [Cursor.synchronize, hd]
  rw [declaration_apply, hc₁.current_eq, ho, recovering_of_error hrun, hsync]
  exact ⟨_, ⟨notes, d.site, _, _, _, hn, by simp [Cursor.site, Cursor.current, hd], rfl⟩, rfl⟩

end Block

end Parse

/-! ### Streams -/

open Parse

namespace TokenStream

variable {s e q : Token} {stmt : Stmt} {cause : Cause} {b Q : List Token}

/-- A program on the tokens with fewer levels is the same one. -/
theorem program_eq_parse {t : TokenStream} (he : ∀ u ∈ t.body, u.kind ≠ .eof)
    (h : t.parse.diagnostics = []) {stop : List TokenKind} {room : Nat} {body : List Stmt}
    {bad : List Token} (hp : Program stop room t.body body bad) (hr : room ≤ maxNesting) :
    body = t.parse.program ∧ bad = [] := by
  obtain ⟨hbody, hnotes⟩ := parse_of_program he ((hp.of_subset (List.nil_subset _)).mono hr)
  exact ⟨hbody.symm, List.map_eq_nil_iff.1 (hnotes.diagnostics_eq.symm.trans h)⟩

/-- Where the semicolon of a first statement is missing, this alone is reported, and what is left at
the next statement boundary behind the token in its place is read as if it stood alone. -/
theorem parse_unterminated (he : e.kind = .eof) (ht : ∀ t ∈ b ++ q :: Q, t.kind ≠ .eof)
    (h : Unterminated maxNesting b q cause) :
    let all := (TokenStream.mk (b ++ q :: Q) e he).parse
    let rest := (TokenStream.mk (Cursor.fromBoundary Q) e he).parse
    all.program = rest.program ∧ all.diagnostics = .atToken cause q :: rest.diagnostics := by
  intro all rest
  have hc : (TokenStream.mk (b ++ q :: Q) e he).cursor.Passes ([] ++ b ++ [q])
      ⟨(b ++ [q]).reverse, Q, e⟩ := by
    rw [cursor_eq ht]
    exact ⟨by simp, by simp, rfl⟩
  have hrest : ∀ t ∈ Cursor.fromBoundary Q, t.kind ≠ .eof := by
    intro t hm
    exact ht t (by simp [(Cursor.fromBoundary_suffix Q).subset hm])
  have hc' := Cursor.passes_nil (TokenStream.mk (Cursor.fromBoundary Q) e he).cursor
  obtain ⟨os, os', d, d', notes, notes', hrun, hrun', hos, -, hn⟩ :=
    many_item_unterminated stops_atEnd .nil h (fun _ _ => List.not_mem_nil) hc hc'
      (by rw [cursor_eq hrest]) (by rw [cursor_eq hrest])
  obtain ⟨hbody, hnotes⟩ := parse_of_many hrun
  obtain ⟨hbody', hnotes'⟩ := parse_of_many hrun'
  refine ⟨by rw [hbody, hos, hbody'], ?_⟩
  unfold Parsing.diagnostics
  rw [hnotes, hnotes', hn]

/-- If a statement `b` lacks its semicolon and a program follows that begins with a keyword, this is
reported at the keyword, and the first statement of the program is lost. -/
theorem unterminated_loses_next (he : e.kind = .eof) (hl : e.literal = none)
    (hs : s.kind = .semicolon) (hq : q.kind = .kwPrint ∨ q.kind = .kwVar)
    (hb : ∀ t ∈ b, t.kind ≠ .eof) (hQ : RegularTokens (q :: Q))
    (hbd : (TokenStream.mk (b ++ [s]) e he).parse.diagnostics = [])
    (hbp : (TokenStream.mk (b ++ [s]) e he).parse.program = [stmt])
    (hm : stmt.missingSemicolon? = some cause)
    (hqd : (TokenStream.mk (q :: Q) e he).parse.diagnostics = []) :
    let next := (TokenStream.mk (q :: Q) e he).parse
    let all := (TokenStream.mk (b ++ q :: Q) e he).parse
    all.diagnostics = [.atToken cause q] ∧ ∃ first, next.program = first :: all.program := by
  intro next all
  have hbe : ∀ t ∈ b ++ [s], t.kind ≠ .eof := List.forall_mem_append.2 ⟨hb, by simp [hs]⟩
  have hQe : ∀ t ∈ q :: Q, t.kind ≠ .eof := fun t ht => (hQ t ht).1
  have hdecl := program_of_diagnostics_eq_nil (s := ⟨b ++ [s], e, he⟩) hbe hl hbd
  rw [hbp] at hdecl
  have hstart : q.kind ∉ .semicolon :: Precedence.assignment.joining := by
    rcases hq with hq | hq <;> rw [hq] <;> decide
  obtain ⟨hbody, hdiagnostics⟩ :=
    parse_unterminated he (List.forall_mem_append.2 ⟨hb, hQe⟩)
      ⟨⟨s, stmt, hdecl.declaration, hm⟩, hstart⟩
  obtain ⟨us, vs, first, rest, rfl, hnext, hfirst, hrest⟩ :=
    (program_of_diagnostics_eq_nil (s := ⟨q :: Q, e, he⟩) hQe hl hqd).exists_cons
  have hQ : RegularTokens ((q :: us) ++ vs) := hQ
  have hblock : q.kind ≠ .openCurly := by rcases hq with hq | hq <;> simp [hq]
  have hskip := (hfirst.fromBoundary_append hQ.of_append.1 hblock vs).2
  have hvs : ∀ t ∈ vs, t.kind ≠ .eof := fun t ht => (hQ.of_append.2 t ht).1
  obtain ⟨hrestbody, hrestnotes⟩ := parse_of_program (s := ⟨vs, e, he⟩) hvs hrest
  rw [hskip] at hbody hdiagnostics
  refine ⟨?_, first, ?_⟩
  · rw [hdiagnostics]
    exact congrArg _ hrestnotes.diagnostics_eq
  · rw [hnext, hbody, hrestbody]

/-- The statement `nil;`. -/
theorem parse_nil :
    let s : TokenStream := ⟨[.plain .kwNil] ++ [.plain .semicolon], .plain .eof, rfl⟩
    s.parse.diagnostics = [] ∧ s.parse.program = [.expression (.literal .nil)] := by
  intro s
  have value : Derives maxNesting .assignment [.plain .kwNil] (.literal .nil) [] :=
    .loosen (.operand (.nil rfl rfl) (by simp [prefixOperators, Token.plain])) (by decide)
  have stmt : Declaration maxNesting s.body (.expression (.literal .nil)) [] :=
    .expression value (by simp [statementKinds, Token.plain]) rfl
  have program : Program [] maxNesting s.body [.expression (.literal .nil)] [] :=
    .cons stmt (fun _ _ => List.not_mem_nil) .nil
  obtain ⟨hbody, hnotes⟩ := parse_of_program (by decide) program
  exact ⟨hnotes.diagnostics_eq, hbody⟩

/-- In `nil print nil; nil;` the statement `print nil;` is lost. -/
theorem unterminated_loses_next_print :
    let q := Token.plain .kwPrint
    let Q := [Token.plain .kwNil, .plain .semicolon, .plain .kwNil, .plain .semicolon]
    let next := (TokenStream.mk (q :: Q) (.plain .eof) rfl).parse
    let all := (TokenStream.mk ([.plain .kwNil] ++ q :: Q) (.plain .eof) rfl).parse
    all.diagnostics = [.atToken (.expectedToken ";" "Expect ';' after expression.") q] ∧
      ∃ first, next.program = first :: all.program := by
  intro q Q next all
  exact unterminated_loses_next rfl rfl rfl (.inl rfl) (by decide) (by decide) parse_nil.1
    parse_nil.2 rfl (by decide +kernel)

/-- The next statement is not kept. -/
theorem not_unterminated_keeps_next :
    let b : TokenStream := ⟨[.plain .kwNil] ++ [.plain .semicolon], .plain .eof, rfl⟩
    let q : TokenStream :=
      ⟨[.plain .kwPrint, .plain .kwNil, .plain .semicolon], .plain .eof, rfl⟩
    let all : TokenStream := ⟨[.plain .kwNil] ++ q.body, .plain .eof, rfl⟩
    b.parse.diagnostics = [] ∧ b.parse.program = [.expression (.literal .nil)] ∧
      q.parse.diagnostics = [] ∧ all.parse.program ≠ q.parse.program := by
  intro b q all
  refine ⟨parse_nil.1, parse_nil.2, by decide +kernel, fun h => ?_⟩
  have hlen := congrArg List.length h
  revert hlen
  decide +kernel

/-! ### Blocks -/

/-- Of a block that is never closed nothing is kept. -/
theorem parse_unclosed (he : e.kind = .eof) {room : Nat} (hr : maxNesting = room + 1) {o : Token}
    (ho : o.kind = .openCurly) {ts : List Token} {body : List Stmt} (ht : ∀ t ∈ ts, t.kind ≠ .eof)
    (h : Program [.closeCurly] room ts body []) :
    let p := (TokenStream.mk (o :: ts) e he).parse
    p.program = [] ∧
      p.diagnostics = [.atToken (.expectedToken "\x7d" "Expect '\x7d' after block.") e] := by
  intro p
  have hall : ∀ t ∈ o :: ts, t.kind ≠ .eof := List.forall_mem_cons.2 ⟨by simp [ho], ht⟩
  have hc : (TokenStream.mk (o :: ts) e he).cursor.Passes (o :: ts) ⟨(o :: ts).reverse, [], e⟩ :=
    passes_body hall
  have hend : Cursor.atEnd ⟨(o :: ts).reverse, [], e⟩ = true := rfl
  obtain ⟨c₁, hc₁, -⟩ := Cursor.passes_cons_iff.1 hc
  obtain ⟨notes, hn, hrun⟩ := declaration_unclosed ho h hc rfl
  rw [← hr] at hrun
  have hlen : 0 < (TokenStream.mk (o :: ts) e he).cursor.rest.length := by
    rw [hc.length_rest]
    exact Nat.lt_add_right _ (Nat.succ_pos ts.length)
  have hmany := many_of_some (item_apply hc₁.atEnd_eq hrun) hlen
  rw [many_item_of_stop hend] at hmany
  obtain ⟨hbody, hnotes⟩ := parse_of_many hmany
  refine ⟨hbody, ?_⟩
  show Note.diagnostics p.notes = _
  rw [hnotes, List.append_nil, hn.diagnostics_eq]
  rfl

/-- If a statement of a first block lacks its semicolon, the block goes on with what is left at the
next statement boundary. -/
theorem parse_block_unterminated (he : e.kind = .eof) {room : Nat} (hr : maxNesting = room + 1)
    {o : Token} (ho : o.kind = .openCurly) {P : List Token} {body : List Stmt}
    (ht : ∀ t ∈ o :: (P ++ b ++ q :: Q), t.kind ≠ .eof)
    (hP : Program [.closeCurly] room P body []) (h : Unterminated room b q cause)
    (hhead : HeadNotIn [.closeCurly] b) :
    let all := (TokenStream.mk (o :: (P ++ b ++ q :: Q)) e he).parse
    let rest := (TokenStream.mk (o :: (P ++ Cursor.fromBoundary Q)) e he).parse
    all.program = rest.program ∧ all.diagnostics = .atToken cause q :: rest.diagnostics := by
  intro all rest
  have hrest : ∀ t ∈ o :: (P ++ Cursor.fromBoundary Q), t.kind ≠ .eof := by
    intro t hm
    simp only [List.mem_cons, List.mem_append] at hm
    rcases hm with rfl | hm | hm
    · exact ht _ (by simp)
    · exact ht t (by simp [hm])
    · exact ht t (by simp [(Cursor.fromBoundary_suffix Q).subset hm])
  have hc : (TokenStream.mk (o :: (P ++ b ++ q :: Q)) e he).cursor.Passes (o :: (P ++ b ++ [q]))
      ⟨(o :: (P ++ b ++ [q])).reverse, Q, e⟩ := by
    rw [cursor_eq ht]
    exact ⟨by simp, by simp, rfl⟩
  have hc' : (TokenStream.mk (o :: (P ++ Cursor.fromBoundary Q)) e he).cursor.Passes (o :: P)
      ⟨(o :: P).reverse, Cursor.fromBoundary Q, e⟩ := by
    rw [cursor_eq hrest]
    exact ⟨by simp, by simp, rfl⟩
  have key := program_unterminated ho hP h hhead hc hc' rfl rfl
  rw [← hr] at key
  exact parse_of_agrees key

/-- What is read without a diagnostic alone and in braces is a program one level deeper. -/
theorem program_of_enclosed (he : e.kind = .eof) (hl : e.literal = none) {o c : Token}
    (ho : o.kind = .openCurly) (hc : c.kind = .closeCurly) {room : Nat} (hr : maxNesting = room + 1)
    {ts : List Token} (ht : RegularTokens ts)
    (h : (TokenStream.mk ts e he).parse.diagnostics = [])
    (h' : (TokenStream.mk (o :: ts ++ [c]) e he).parse.diagnostics = []) :
    Program [.closeCurly] room ts (TokenStream.mk ts e he).parse.program [] := by
  have hte : ∀ t ∈ ts, t.kind ≠ .eof := fun t hm => (ht t hm).1
  have hall : ∀ t ∈ o :: ts ++ [c], t.kind ≠ .eof :=
    List.forall_mem_append.2 ⟨List.forall_mem_cons.2 ⟨by simp [ho], hte⟩, by simp [hc]⟩
  have hprogram := program_of_diagnostics_eq_nil (s := ⟨ts, e, he⟩) hte hl h
  have henclosed : Program [] maxNesting (enclose [(o, c)] ts) _ [] :=
    program_of_diagnostics_eq_nil (s := ⟨o :: ts ++ [c], e, he⟩) hall hl h'
  have hbraces : Braces [(o, c)] := by simp [Braces, ho, hc]
  obtain ⟨r, stop, body, bad, hroom, hin⟩ := (hprogram.closed ht).of_enclose hbraces henclosed
  obtain rfl : r = room := Nat.succ_injective (hroom.symm.trans hr)
  obtain ⟨rfl, rfl⟩ := program_eq_parse (t := ⟨ts, e, he⟩) hte h hin (by omega)
  exact hin.closed ht

/-- If the last statement `b` of a block lacks its semicolon, this is reported at the closing brace,
and the block goes on behind the brace with what is left of `Q` at its first statement boundary.  So
if `Q` is a program that does not begin with a block, then there is a second diagnostic at the end
of input, and nothing is kept. -/
theorem unterminated_leaves_block_open (he : e.kind = .eof) (hl : e.literal = none)
    {o c : Token} (ho : o.kind = .openCurly) (hc : c.kind = .closeCurly)
    {P : List Token} (hP : RegularTokens P) (hb : RegularTokens (b ++ [s]))
    (hQ : ∀ t ∈ Q, t.kind ≠ .eof)
    (hpd : (TokenStream.mk P e he).parse.diagnostics = [])
    (hbd : (TokenStream.mk (b ++ [s]) e he).parse.diagnostics = [])
    (hbp : (TokenStream.mk (b ++ [s]) e he).parse.program = [stmt])
    (hm : stmt.missingSemicolon? = some cause)
    (hroom : (TokenStream.mk (o :: (P ++ (b ++ [s])) ++ [c]) e he).parse.diagnostics = []) :
    let all := (TokenStream.mk (o :: (P ++ b ++ c :: Q)) e he).parse
    let rest := (TokenStream.mk (o :: (P ++ Cursor.fromBoundary Q)) e he).parse
    (all.program = rest.program ∧ all.diagnostics = .atToken cause c :: rest.diagnostics) ∧
      (RegularTokens Q → HeadNotIn [.openCurly] Q →
        (TokenStream.mk Q e he).parse.diagnostics = [] →
        (TokenStream.mk (o :: Q ++ [c]) e he).parse.diagnostics = [] →
        all.program = [] ∧ all.diagnostics = [.atToken cause c,
          .atToken (.expectedToken "\x7d" "Expect '\x7d' after block.") e]) := by
  intro all rest
  obtain ⟨room, hr⟩ : ∃ room, maxNesting = room + 1 := ⟨127, rfl⟩
  have hPe : ∀ t ∈ P, t.kind ≠ .eof := fun t ht => (hP t ht).1
  have hbe : ∀ t ∈ b ++ [s], t.kind ≠ .eof := fun t ht => (hb t ht).1
  -- with a level less, `P` and the statement are still the same
  have hprogP := program_of_diagnostics_eq_nil (s := ⟨P, e, he⟩) hPe hl hpd
  have hprogB := program_of_diagnostics_eq_nil (s := ⟨b ++ [s], e, he⟩) hbe hl hbd
  have hboth : (TokenStream.mk (P ++ (b ++ [s])) e he).parse.diagnostics = [] :=
    (parse_of_program (s := ⟨P ++ (b ++ [s]), e, he⟩) (List.forall_mem_append.2 ⟨hPe, hbe⟩)
      (hprogP.append hprogB)).2.diagnostics_eq
  have hin := program_of_enclosed he hl ho hc hr (hP.append hb) hboth hroom
  obtain ⟨body₁, bad₀, bad₁, -, hP', hB'⟩ := hprogP.of_append hin
  obtain ⟨-, rfl⟩ := program_eq_parse (t := ⟨P, e, he⟩) hPe hpd hP' (by omega)
  obtain ⟨rfl, rfl⟩ := program_eq_parse (t := ⟨b ++ [s], e, he⟩) hbe hbd hB' (by omega)
  rw [hbp] at hB'
  have hhead : HeadNotIn [.closeCurly] b := (hB'.declaration.headNotIn_closeCurly hb).of_append
  have hstart : c.kind ∉ .semicolon :: Precedence.assignment.joining := by
    rw [hc]
    decide
  have hall : ∀ t ∈ o :: (P ++ b ++ c :: Q), t.kind ≠ .eof := by
    simp only [List.forall_mem_cons, List.forall_mem_append]
    exact ⟨by simp [ho], ⟨hPe, fun t ht => hbe t (by simp [ht])⟩, by simp [hc], hQ⟩
  obtain ⟨hbody, hdiagnostics⟩ :=
    parse_block_unterminated he hr ho hall hP' ⟨⟨s, stmt, hB'.declaration, hm⟩, hstart⟩ hhead
  refine ⟨⟨hbody, hdiagnostics⟩, fun hQr hQhead hQd hQroom => ?_⟩
  obtain ⟨bodyQ, hprogQ⟩ :=
    (program_of_enclosed he hl ho hc hr hQr hQd hQroom).fromBoundary hQr hQhead
  have hte : ∀ t ∈ P ++ Cursor.fromBoundary Q, t.kind ≠ .eof :=
    List.forall_mem_append.2 ⟨hPe, fun t ht => hQ t ((Cursor.fromBoundary_suffix Q).subset ht)⟩
  obtain ⟨hopen, hclose⟩ := parse_unclosed he hr ho hte (hP'.append hprogQ)
  exact ⟨hbody.trans hopen, hdiagnostics.trans (congrArg _ hclose)⟩

/-- In `{ nil } print nil;` the block is left open up to the end, and nothing is kept. -/
theorem unterminated_leaves_block_open_print :
    let Q := [Token.plain .kwPrint, .plain .kwNil, .plain .semicolon]
    let all := (TokenStream.mk (.plain .openCurly :: ([] ++ [.plain .kwNil] ++
      .plain .closeCurly :: Q)) (.plain .eof) rfl).parse
    all.program = [] ∧
      all.diagnostics = [.atToken (.expectedToken ";" "Expect ';' after expression.")
          (.plain .closeCurly),
        .atToken (.expectedToken "\x7d" "Expect '\x7d' after block.") (.plain .eof)] := by
  intro Q all
  have key := unterminated_leaves_block_open (e := .plain .eof) (o := .plain .openCurly)
    (c := .plain .closeCurly) (P := []) (Q := Q) rfl rfl rfl rfl (by decide) (by decide)
    (by decide) (by decide +kernel) parse_nil.1 parse_nil.2 rfl (by decide +kernel)
  exact key.2 (by decide) (by simp [Q, Token.plain]) (by decide +kernel) (by decide +kernel)

/-- The block is not kept, and there is a second diagnostic. -/
theorem not_unterminated_closes_block :
    let p : TokenStream := ⟨[], .plain .eof, rfl⟩
    let b : TokenStream := ⟨[.plain .kwNil] ++ [.plain .semicolon], .plain .eof, rfl⟩
    let q : TokenStream :=
      ⟨[.plain .kwPrint, .plain .kwNil, .plain .semicolon], .plain .eof, rfl⟩
    let all : TokenStream := ⟨.plain .openCurly :: (p.body ++ [.plain .kwNil] ++
      .plain .closeCurly :: q.body), .plain .eof, rfl⟩
    p.parse.diagnostics = [] ∧ b.parse.diagnostics = [] ∧
      b.parse.program = [.expression (.literal .nil)] ∧ q.parse.diagnostics = [] ∧
      all.parse.program ≠ .block p.parse.program :: q.parse.program ∧
      all.parse.diagnostics ≠ [.atToken (.expectedToken ";" "Expect ';' after expression.")
        (.plain .closeCurly)] := by
  intro p b q all
  refine ⟨by decide +kernel, parse_nil.1, parse_nil.2, by decide +kernel, fun h => ?_,
    by decide +kernel⟩
  have hlen := congrArg List.length h
  revert hlen
  decide +kernel

end TokenStream

end Lox

import Lox.Proofs.Cursor.Boundary
import Lox.Proofs.Grammar.Semicolon
import Lox.Proofs.Parse.Enclosed
import Lox.Proofs.Parse.Stream

/-!
# Recovery

A malformed statement without braces ends at its semicolon: the parser has its panic before it has
passed the semicolon (`exists_fails`), and synchronization goes on just behind it
(`Cursor.synchronize_eq`).  So nothing else is lost.  The key fact: what stands before and behind the
statement is read as if it were not there, also within blocks (`recovery_isolates`).
-/

namespace Lox

/-! ### Notes -/

namespace Note

/-- The notes on a declaration that is left out: misplaced equals signs, the panic at the token `t`
and the recovery from it. -/
def Dropped (notes : List Note) (bad : List Token) (cause : Cause) (t : Token) : Prop :=
  ∃ noted site start stop line, Misplaced noted bad ∧ site.token = t ∧
    notes = noted ++ [.fault ⟨cause, site⟩, .synchronized start stop line]

/-- The notes on a declaration that is left out, between misplaced equals signs. -/
def Isolated (notes : List Note) (bad₁ bad : List Token) (cause : Cause) (t : Token)
    (bad₂ : List Token) : Prop :=
  ∃ n₁ n n₂, Misplaced n₁ bad₁ ∧ Dropped n bad cause t ∧ Misplaced n₂ bad₂ ∧
    notes = n₁ ++ (n ++ n₂)

variable {notes : List Note} {bad bad₁ bad₂ : List Token} {cause : Cause} {t : Token}

theorem Misplaced.not_isPanic (h : Misplaced notes bad) :
    ∀ f ∈ faults notes, f.cause.isPanic = false := by
  intro f hf
  rw [h.cause_eq hf]
  rfl

theorem Misplaced.eq_nil (h : Misplaced notes []) : notes = [] := by
  obtain ⟨sites, hs, rfl⟩ := h
  rw [List.map_eq_nil_iff.1 hs]
  rfl

theorem Dropped.faults_eq (h : Dropped notes bad cause t) (hc : cause.isPanic = true) :
    ∃ noted f, faults notes = noted ++ [f] ∧ f.cause.isPanic = true ∧
      ∀ g ∈ noted, g.cause.isPanic = false := by
  obtain ⟨noted, site, start, stop, line, hn, -, rfl⟩ := h
  exact ⟨faults noted, ⟨cause, site⟩, faults_append .., hc, hn.not_isPanic⟩

theorem Dropped.diagnostics_eq (h : Dropped notes bad cause t) : diagnostics notes =
    bad.map (.atToken .invalidAssignmentTarget) ++ [.atToken cause t] := by
  obtain ⟨noted, site, start, stop, line, hn, rfl, rfl⟩ := h
  have key := hn.diagnostics_eq
  unfold diagnostics at *
  rw [faults_append, List.map_append, key]
  rfl

theorem Isolated.diagnostics_eq (h : Isolated notes bad₁ bad cause t bad₂) : diagnostics notes =
    bad₁.map (.atToken .invalidAssignmentTarget) ++
      (bad.map (.atToken .invalidAssignmentTarget) ++ [.atToken cause t]) ++
      bad₂.map (.atToken .invalidAssignmentTarget) := by
  obtain ⟨n₁, n, n₂, h₁, h, h₂, rfl⟩ := h
  rw [← h₁.diagnostics_eq, ← h.diagnostics_eq, ← h₂.diagnostics_eq]
  simp [diagnostics, faults_append]

theorem Isolated.filter_isPanic (h : Isolated notes bad₁ bad cause t bad₂)
    (hc : cause.isPanic = true) : ∃ f, (faults notes).filter (·.cause.isPanic) = [f] := by
  obtain ⟨n₁, n, n₂, h₁, h, h₂, rfl⟩ := h
  obtain ⟨noted, f, hf, hp, hnoted⟩ := h.faults_eq hc
  have none_of {l : List Fault} (hl : ∀ g ∈ l, g.cause.isPanic = false) :
      l.filter (·.cause.isPanic) = [] := by
    simpa using hl
  refine ⟨f, ?_⟩
  rw [faults_append, faults_append, hf]
  simp [none_of h₁.not_isPanic, none_of hnoted, none_of h₂.not_isPanic, hp]

end Note

/-! ### Malformed statements -/

namespace Parse

open Tolerant

/-- The tokens of a statement without braces, up to its semicolon. -/
structure Unbroken (ts : List Token) : Prop where
  kinds : ∀ t ∈ ts, t.kind ∉ [TokenKind.eof, .semicolon, .openCurly, .closeCurly]
  tail : ∀ t ∈ ts.tail, t.kind ∉ Cursor.statementStarts

section Malformed

variable {ts : List Token} {s : Token} {room : Nat}

theorem Unbroken.kind_ne_semicolon (h : Unbroken ts) {t : Token} (ht : t ∈ ts) :
    t.kind ≠ .semicolon := by
  intro hk
  exact h.kinds t ht (by simp [hk])

theorem Unbroken.kind_ne_eof (h : Unbroken ts) (hs : s.kind = .semicolon) :
    ∀ t ∈ ts ++ [s], t.kind ≠ .eof := by
  intro t ht hk
  rcases List.mem_append.1 ht with ht | ht
  · exact h.kinds t ht (by simp [hk])
  · rw [List.mem_singleton.1 ht, hs] at hk
    cases hk

theorem Unbroken.headNotIn (h : Unbroken ts) (hs : s.kind = .semicolon) :
    HeadNotIn [.openCurly, .closeCurly] (ts ++ [s]) := by
  cases ts with
  | nil => simp [hs]
  | cons t ts =>
    have key := h.kinds t (List.mem_cons_self ..)
    rw [List.cons_append, headNotIn_cons]
    intro hk
    apply key
    simp only [List.mem_cons, List.not_mem_nil, or_false] at hk
    rcases hk with hk | hk <;> simp [hk]

/-- If the tokens up to the semicolon are no declaration, then the parser fails before it has
passed the semicolon, whatever follows. -/
theorem exists_fails (h : Unbroken ts) (hs : s.kind = .semicolon) (hl : s.literal = none)
    (hno : ∀ stmt bad, ¬Declaration room (ts ++ [s]) stmt bad) :
    ∃ us t vs cause bad, ts ++ [s] = us ++ t :: vs ∧ cause.isPanic = true ∧
      ∀ c d : Cursor, c.Passes us d → d.current = t → d.atEnd = false →
        Fails (leading room c.current.kind) c cause bad d := by
  -- a run on these tokens alone tells where the parser fails
  have hclosed : (⟨[], ts ++ [s], .plain .eof⟩ : Cursor).Closed := ⟨rfl, rfl⟩
  obtain @⟨us, d, e, hc, ha, hrun⟩ := explained_leading room hclosed
  have hrest : ts ++ [s] = us ++ d.rest := hc.1
  have hhead : HeadNotIn [.openCurly] (ts ++ [s]) := (h.headNotIn hs).of_subset (by simp)
  have hblock : (⟨[], ts ++ [s], .plain .eof⟩ : Cursor).current.kind ≠ .openCurly := by
    obtain ⟨x, xs, hx⟩ := List.exists_cons_of_ne_nil (List.append_ne_nil_of_right_ne_nil ts
      (List.cons_ne_nil s []))
    rw [hx, headNotIn_cons] at hhead
    rw [hx]
    simpa [Cursor.current] using hhead
  rw [hrest] at hhead
  cases hd : d.rest with
  | nil =>
    rw [hd, List.append_nil] at hrest
    cases e with
    | value stmt bad => exact absurd (hrest ▸ ha.1) (hno stmt bad)
    | panic cause => exact absurd ha.1 hblock
    | fault cause bad =>
      -- the semicolon was passed, but a declaration goes on behind it
      obtain ⟨k, ws, stmt, bad', -, hne, -, hdecl⟩ := ha.2
      rw [← hrest, List.append_assoc] at hdecl
      have hhead : HeadNotIn [.openCurly] (ts ++ s :: ws) := by
        have key := hhead.append (by simp [← hrest]) ws
        rwa [hd, List.append_nil, ← hrest, List.append_assoc] at key
      exact absurd (hdecl.eq_nil_of_semicolon hhead hs hl) hne
  | cons t vs =>
    rw [hd] at hrest
    cases e with
    | value stmt bad =>
      obtain ⟨xs, x, rfl, hx, -⟩ := ha.1.eq_append_semicolon hhead.of_append
      obtain ⟨ws, w, hws⟩ := (List.eq_nil_or_concat (t :: vs)).resolve_left (by simp)
      rw [hws, List.concat_eq_append, ← List.append_assoc] at hrest
      obtain ⟨rfl, -⟩ := List.append_inj' hrest rfl
      exact absurd hx (h.kind_ne_semicolon (by simp))
    | panic cause => exact absurd ha.1 hblock
    | fault cause bad =>
      have hcur : d.current = t := by simp [Cursor.current, hd]
      have hend : d.atEnd = false := by simp [Cursor.atEnd, hd]
      refine ⟨us, t, vs, cause, bad, hrest, ha.1, fun c' d' hc' ht hd' => ?_⟩
      have hlike : d'.LooksLike d := ⟨ht.trans hcur.symm, hd'.trans hend.symm⟩
      rw [(hc.looksLike hc' hlike).1]
      exact hrun c' d' hc' hlike

/-- Going on from a place before the semicolon ends behind it. -/
private theorem Unbroken.synchronize_eq (h : Unbroken ts) (hs : s.kind = .semicolon)
    {us vs : List Token} {t : Token} (hts : ts ++ [s] = us ++ t :: vs) {c d : Cursor}
    (hc : c.Passes (t :: vs) d) : c.synchronize = d := by
  refine Cursor.synchronize_eq hc ?_ ?_ ?_
  · intro x hx
    have key : x ∈ (ts ++ [s]).dropLast := by
      rw [hts, List.dropLast_append_of_ne_nil (List.cons_ne_nil t vs)]
      exact List.mem_append_right us hx
    rw [List.dropLast_concat] at key
    exact h.kind_ne_semicolon key
  · intro x hx
    have key : (ts ++ [s]).getLast? = some x := by
      rw [hts, List.getLast?_append, Option.mem_def.1 hx]
      rfl
    rw [List.getLast?_concat] at key
    cases key
    exact hs
  · intro x hx hstart
    have key : x ∈ (ts ++ [s]).tail := by
      rw [hts]
      cases us with
      | nil => exact hx
      | cons u us => simp [hx]
    cases ts with
    | nil => simp at key
    | cons b bs =>
      rw [List.cons_append, List.tail_cons, List.mem_append, List.mem_singleton] at key
      rcases key with hb | rfl
      · exact h.tail x hb hstart
      · rw [hs] at hstart
        revert hstart
        decide

/-- The declaration is left out, with the same notes wherever it stands. -/
theorem exists_dropped (h : Unbroken ts) (hs : s.kind = .semicolon) (hl : s.literal = none)
    (hno : ∀ stmt bad, ¬Declaration room (ts ++ [s]) stmt bad) :
    ∃ bad cause t, cause.isPanic = true ∧ ∀ c d : Cursor, c.Passes (ts ++ [s]) d →
      ∃ notes, Note.Dropped notes bad cause t ∧
        declaration .standard room c = ⟨.ok none, d, notes⟩ := by
  obtain ⟨us, t, vs, cause, bad, hts, hp, hfails⟩ := exists_fails h hs hl hno
  refine ⟨bad, cause, t, hp, fun c d hc => ?_⟩
  rw [hts] at hc
  obtain ⟨c₁, hc₁, hd⟩ := Cursor.passes_append_iff.1 hc
  obtain ⟨c₂, ht, -⟩ := Cursor.passes_cons_iff.1 hd
  obtain ⟨notes, hn, hrun⟩ := hfails c c₁ hc₁ ht.current_eq ht.atEnd_eq
  have hrec := recovering_of_error hrun
  rw [h.synchronize_eq hs hts hd, ← declaration_apply] at hrec
  exact ⟨_, ⟨notes, c₁.site, _, _, _, hn, ht.current_eq, rfl⟩, hrec⟩

end Malformed

/-! ### Repetitions of declarations -/

/-- Up to any end of a repetition the tokens are read as these statements, with such notes. -/
def Reads (room : Nat) (ts : List Token) (body : List Stmt) (N : List Note → Prop) : Prop :=
  ∀ (stop : Cursor → Bool) (kinds : List TokenKind), Stops stop kinds → ∀ c d : Cursor,
    c.Passes ts d → stop d = true → ∃ os notes, os.reduceOption = body ∧ N notes ∧
      many (item stop room) c = ⟨.ok os, d, notes⟩

section Reads

variable {room : Nat} {ts : List Token} {body : List Stmt} {N : List Note → Prop}

/-- What is left out between two programs is the only thing that is missing. -/
theorem reads_isolated {P Q : List Token} {bodyP bodyQ : List Stmt} {badP badQ bad : List Token}
    {cause : Cause} {t : Token} (hP : Program [.closeCurly] room P bodyP badP)
    (hQ : Program [.closeCurly] room Q bodyQ badQ) (hts : ts ≠ [])
    (hhead : HeadNotIn [.closeCurly] ts)
    (hdrop : ∀ c d : Cursor, c.Passes ts d → ∃ notes, Note.Dropped notes bad cause t ∧
      declaration .standard room c = ⟨.ok none, d, notes⟩) :
    Reads room (P ++ ts ++ Q) (bodyP ++ bodyQ) (Note.Isolated · badP bad cause t badQ) := by
  intro stop kinds hs c d hc hd
  obtain ⟨c₂, hc₂, hQd⟩ := Cursor.passes_append_iff.1 hc
  obtain ⟨c₁, hPc, htc⟩ := Cursor.passes_append_iff.1 hc₂
  obtain ⟨n₁, hn₁, hrun₁⟩ := many_item_of_program hs (hP.of_subset hs.subset) hPc
  obtain ⟨n, hn, hdecl⟩ := hdrop c₁ c₂ htc
  obtain ⟨n₂, hn₂, hrun₂⟩ := yields_items hs (hQ.of_subset hs.subset) hQd hd
  have hstop : stop c₁ = false := by
    obtain ⟨x, xs, rfl⟩ := List.exists_cons_of_ne_nil hts
    obtain ⟨c', hx, -⟩ := Cursor.passes_cons_iff.1 htc
    exact hs.eq_false_of_passes hx (headNotIn_cons.1 (hhead.of_subset hs.subset))
  have hlen : c₂.rest.length < c₁.rest.length := by
    have := List.length_pos_iff.2 hts
    rw [htc.length_rest]
    omega
  refine ⟨bodyP.map some ++ none :: bodyQ.map some, n₁ ++ (n ++ n₂), ?_,
    ⟨n₁, n, n₂, hn₁, hn, hn₂, rfl⟩, ?_⟩
  · rw [List.reduceOption_append, List.reduceOption_cons_of_none, reduceOption_map_some,
      reduceOption_map_some]
  · rw [hrun₁, many_of_some (item_apply hstop hdecl) hlen, hrun₂]
    rfl

/-- A malformed statement is left out wherever programs stand around it. -/
theorem exists_reads {s : Token} (h : Unbroken ts) (hs : s.kind = .semicolon)
    (hl : s.literal = none) (hno : ∀ stmt bad, ¬Declaration room (ts ++ [s]) stmt bad) :
    ∃ bad cause t, cause.isPanic = true ∧ ∀ {P Q : List Token} {bodyP bodyQ : List Stmt}
      {badP badQ : List Token}, Program [.closeCurly] room P bodyP badP →
      Program [.closeCurly] room Q bodyQ badQ →
      Reads room (P ++ (ts ++ [s]) ++ Q) (bodyP ++ bodyQ)
        (Note.Isolated · badP bad cause t badQ) := by
  obtain ⟨bad, cause, t, hp, hdrop⟩ := exists_dropped h hs hl hno
  refine ⟨bad, cause, t, hp, fun hP hQ => reads_isolated hP hQ (by simp) ?_ hdrop⟩
  exact (h.headNotIn hs).of_subset (by simp)

theorem Reads.block (h : Reads room ts body N) {o b : Token} (ho : o.kind = .openCurly)
    (hb : b.kind = .closeCurly) : Reads (room + 1) (o :: ts ++ [b]) [.block body] N := by
  intro stop kinds hs c d hc hd
  obtain ⟨c₁, hc₁, hc₁d⟩ := Cursor.passes_cons_iff.1 hc
  obtain ⟨c₂, hc₂, hc₂d⟩ := Cursor.passes_append_iff.1 hc₁d
  have hend : blockEnd c₂ = true := stops_blockEnd.iff.2 (.inl (hc₂d.isAt_iff.2 (by simp [hb])))
  obtain ⟨os, notes, rfl, hn, hrun⟩ := h _ _ stops_blockEnd _ _ hc₂ hend
  have hstop : stop c = false := hs.eq_false_of_passes hc₁ fun hk => by
    simpa [ho] using hs.subset hk
  have hlead : leading (room + 1) c.current.kind c = ⟨.ok (.block os.reduceOption), d, notes⟩ := by
    rw [hc₁.current_eq, ho, leading_openCurly, bind_apply_of_ok (skip_of_passes hc₁),
      bind_apply_of_ok hrun, bind_apply_of_ok (expect_of_passes _ hc₂d hb), pure_apply]
    simp
  have hdecl : declaration .standard (room + 1) c =
      ⟨.ok (some (.block os.reduceOption)), d, notes⟩ := by
    rw [declaration_apply, recovering_of_ok hlead]
  have hlen : d.rest.length < c.rest.length := by
    have := hc.length_rest
    simp only [List.length_append, List.length_cons] at this
    omega
  refine ⟨[some (.block os.reduceOption)], notes, rfl, hn, ?_⟩
  rw [many_of_some (item_apply hstop hdecl) hlen, many_item_of_stop hd, List.append_nil]
  rfl

theorem Reads.enclose (h : Reads room ts body N) {braces : List (Token × Token)}
    (hb : Braces braces) :
    Reads (room + braces.length) (enclose braces ts) (nest braces.length body) N := by
  induction braces with
  | nil => exact h
  | cons b braces ih =>
    obtain ⟨⟨ho, hc⟩, hb⟩ := hb.of_cons
    exact Reads.block (ih hb) ho hc

end Reads

end Parse

open Parse Tolerant

namespace TokenStream

theorem parse_of_reads {s : TokenStream} {body : List Stmt} {N : List Note → Prop}
    (he : ∀ t ∈ s.body, t.kind ≠ .eof) (h : Reads maxNesting s.body body N) :
    s.parse.program = body ∧ N s.parse.notes := by
  obtain ⟨os, notes, rfl, hn, hrun⟩ := h _ _ stops_atEnd _ _ (passes_body he) rfl
  obtain ⟨hbody, hnotes⟩ := parse_of_many hrun
  exact ⟨hbody, hnotes ▸ hn⟩

section Recovery

variable {P Q B : List Token} {s e : Token} (he : e.kind = .eof)

private theorem kind_ne_eof_of_enclose {braces : List (Token × Token)} {ts : List Token}
    (hb : Braces braces) (ht : ∀ t ∈ ts, t.kind ≠ .eof) :
    ∀ t ∈ enclose braces ts, t.kind ≠ .eof := by
  induction braces with
  | nil => exact ht
  | cons b braces ih =>
    obtain ⟨⟨ho, hc⟩, hb⟩ := hb.of_cons
    unfold enclose
    simp only [List.forall_mem_append, List.forall_mem_cons]
    exact ⟨⟨by simp [ho], ih hb⟩, by simp [hc], by simp⟩

private theorem not_declaration (ht : ∀ t ∈ B, t.kind ≠ .eof)
    (hb : (TokenStream.mk B e he).parse.firstPanic? ≠ none) (stmt : Stmt) (bad : List Token) :
    ¬Declaration maxNesting B stmt bad := by
  intro hdecl
  have hprog : Program [] maxNesting B [stmt] bad :=
    hdecl.program fun _ _ => List.not_mem_nil
  exact hb (parse_of_program ht hprog).2.firstPanic?_eq_none

/-- In braces a malformed statement is left out as well, as far as there are levels. -/
private theorem parse_enclose {bodyP bodyQ : List Stmt} {badP badQ : List Token}
    (hl : e.literal = none) (hs : s.kind = .semicolon) (hsl : s.literal = none)
    (hP : RegularTokens P) (hQ : RegularTokens Q) (hB : Unbroken B)
    (hprogP : Program [] maxNesting P bodyP badP) (hprogQ : Program [] maxNesting Q bodyQ badQ)
    (hno : ∀ stmt bad, ¬Declaration maxNesting (B ++ [s]) stmt bad)
    {braces : List (Token × Token)} (hbr : Braces braces)
    (hpq : (TokenStream.mk (enclose braces (P ++ Q)) e he).parse.firstPanic? = none) :
    let enclosed := (TokenStream.mk (enclose braces (P ++ (B ++ [s]) ++ Q)) e he).parse
    enclosed.program = nest braces.length (bodyP ++ bodyQ) ∧
      ∃ f, (Note.faults enclosed.notes).filter (·.cause.isPanic) = [f] := by
  have hPe : ∀ t ∈ P, t.kind ≠ .eof := fun t ht => (hP t ht).1
  have hQe : ∀ t ∈ Q, t.kind ≠ .eof := fun t ht => (hQ t ht).1
  have hPQe : ∀ t ∈ P ++ Q, t.kind ≠ .eof := List.forall_mem_append.2 ⟨hPe, hQe⟩
  have halle : ∀ t ∈ P ++ (B ++ [s]) ++ Q, t.kind ≠ .eof :=
    List.forall_mem_append.2 ⟨List.forall_mem_append.2 ⟨hPe, hB.kind_ne_eof hs⟩, hQe⟩
  obtain ⟨_, _, hprog⟩ := exists_program (kind_ne_eof_of_enclose hbr hPQe) hl hpq
  -- with the levels that are left, `P` and `Q` are still the same programs
  obtain ⟨r, stop, body, bad₁, hr, hprog⟩ :=
    ((hprogP.closed hP).append (hprogQ.closed hQ)).of_enclose hbr hprog
  obtain ⟨bodyQ', badP', badQ', -, hP', hQ'⟩ := hprogP.of_append hprog
  have hprogQ' : Program [] maxNesting Q bodyQ' badQ' :=
    ((hQ'.closed hQ).of_subset (List.nil_subset _)).mono (by omega)
  have hbodyQ : bodyQ' = bodyQ := by
    rw [← (parse_of_program (s := ⟨Q, e, he⟩) hQe hprogQ).1,
      ← (parse_of_program (s := ⟨Q, e, he⟩) hQe hprogQ').1]
  have hno' : ∀ stmt bad, ¬Declaration r (B ++ [s]) stmt bad :=
    fun stmt bad hdecl => hno stmt bad (hdecl.mono (by omega))
  obtain ⟨bad', cause', t', hc', hreads⟩ := exists_reads hB hs hsl hno'
  have hreads := Reads.enclose (hreads (hP'.closed hP) (hQ'.closed hQ)) hbr
  rw [← hr] at hreads
  obtain ⟨hbody, hnotes⟩ :=
    parse_of_reads (s := ⟨_, e, he⟩) (kind_ne_eof_of_enclose hbr halle) hreads
  refine ⟨?_, hnotes.filter_isPanic hc'⟩
  rw [hbody, hbodyQ]

/-- A malformed statement without braces, from its first token to its semicolon, has one panic, and
this is its last fault.  Between the programs `P` and `Q` nothing else is lost or added: the
statements are those of `P` and `Q`, and what is reported on the three parts is reported in this
order.  The same holds in braces, as far as there are levels for `P` and `Q`. -/
theorem recovery_isolates (hl : e.literal = none) (hs : s.kind = .semicolon)
    (hsl : s.literal = none) (hP : RegularTokens P) (hQ : RegularTokens Q) (hB : Unbroken B)
    (hp : (TokenStream.mk P e he).parse.firstPanic? = none)
    (hq : (TokenStream.mk Q e he).parse.firstPanic? = none)
    (hb : (TokenStream.mk (B ++ [s]) e he).parse.firstPanic? ≠ none) :
    let p := (TokenStream.mk P e he).parse
    let q := (TokenStream.mk Q e he).parse
    let b := (TokenStream.mk (B ++ [s]) e he).parse
    let all := (TokenStream.mk (P ++ (B ++ [s]) ++ Q) e he).parse
    (all.program = p.program ++ q.program ∧
        all.diagnostics = p.diagnostics ++ b.diagnostics ++ q.diagnostics) ∧
      (∃ noted f, Note.faults b.notes = noted ++ [f] ∧ f.cause.isPanic = true ∧
        ∀ g ∈ noted, g.cause.isPanic = false) ∧
      ∀ braces : List (Token × Token), Braces braces →
        (TokenStream.mk (enclose braces (P ++ Q)) e he).parse.firstPanic? = none →
        let enclosed := (TokenStream.mk (enclose braces (P ++ (B ++ [s]) ++ Q)) e he).parse
        enclosed.program = nest braces.length (p.program ++ q.program) ∧
          ∃ f, (Note.faults enclosed.notes).filter (·.cause.isPanic) = [f] := by
  intro p q b all
  have hPe : ∀ t ∈ P, t.kind ≠ .eof := fun t ht => (hP t ht).1
  have hQe : ∀ t ∈ Q, t.kind ≠ .eof := fun t ht => (hQ t ht).1
  have hBe := hB.kind_ne_eof hs
  have halle : ∀ t ∈ P ++ (B ++ [s]) ++ Q, t.kind ≠ .eof :=
    List.forall_mem_append.2 ⟨List.forall_mem_append.2 ⟨hPe, hBe⟩, hQe⟩
  obtain ⟨bodyP, badP, hprogP⟩ := exists_program hPe hl hp
  obtain ⟨bodyQ, badQ, hprogQ⟩ := exists_program hQe hl hq
  obtain ⟨hpbody, hpnotes⟩ := parse_of_program hPe hprogP
  obtain ⟨hqbody, hqnotes⟩ := parse_of_program hQe hprogQ
  have hno := not_declaration he hBe hb
  obtain ⟨bad, cause, t, hc, hreads⟩ := exists_reads hB hs hsl hno
  obtain ⟨hallbody, hallnotes⟩ :=
    parse_of_reads (s := ⟨_, e, he⟩) halle (hreads (hprogP.closed hP) (hprogQ.closed hQ))
  have hreadsB : Reads maxNesting (B ++ [s]) [] (Note.Isolated · [] bad cause t []) := by
    have key := hreads .nil .nil
    rwa [List.nil_append, List.append_nil] at key
  obtain ⟨-, hbnotes⟩ := parse_of_reads (s := ⟨_, e, he⟩) hBe hreadsB
  refine ⟨⟨?_, ?_⟩, ?_, ?_⟩
  · rw [hallbody, hpbody, hqbody]
  · unfold Parsing.diagnostics
    rw [hallnotes.diagnostics_eq, hbnotes.diagnostics_eq, hpnotes.diagnostics_eq,
      hqnotes.diagnostics_eq]
    simp
  · obtain ⟨n₁, n, n₂, hn₁, hn, hn₂, hnotes⟩ := hbnotes
    rw [hnotes, hn₁.eq_nil, hn₂.eq_nil, List.nil_append, List.append_nil]
    exact hn.faults_eq hc
  · intro braces hbr hpq enclosed
    rw [hpbody, hqbody]
    exact parse_enclose he hl hs hsl hP hQ hB hprogP hprogQ hno hbr hpq

/-- The statement `print;` between `nil;` and `nil;`, also in braces. -/
theorem recovery_isolates_print :
    let p : TokenStream := ⟨[.plain .kwNil, .plain .semicolon], .plain .eof, rfl⟩
    let braces : List (Token × Token) := [(.plain .openCurly, .plain .closeCurly)]
    let ts := p.body ++ ([.plain .kwPrint] ++ [.plain .semicolon]) ++ p.body
    (TokenStream.mk ts (.plain .eof) rfl).parse.program = p.parse.program ++ p.parse.program ∧
      (TokenStream.mk (enclose braces ts) (.plain .eof) rfl).parse.program =
        nest 1 (p.parse.program ++ p.parse.program) := by
  intro p braces ts
  have key := recovery_isolates (e := .plain .eof) (s := .plain .semicolon) (P := p.body)
    (Q := p.body) (B := [.plain .kwPrint]) rfl rfl rfl rfl (by decide) (by decide)
    ⟨by decide, by decide⟩ (by decide +kernel) (by decide +kernel) (by decide +kernel)
  exact ⟨key.1.1, (key.2.2 braces (by decide) (by decide +kernel)).1⟩

/-- If an end of input stands in the malformed statement, what follows it is lost. -/
theorem not_recovery_isolates_eof :
    let p : TokenStream := ⟨[], .plain .eof, rfl⟩
    let q : TokenStream := ⟨[.plain .kwNil, .plain .semicolon], .plain .eof, rfl⟩
    let B := [Token.plain .kwPrint, .plain .eof]
    let b : TokenStream := ⟨B ++ [.plain .semicolon], .plain .eof, rfl⟩
    let all : TokenStream := ⟨p.body ++ b.body ++ q.body, .plain .eof, rfl⟩
    p.parse.firstPanic? = none ∧ RegularTokens q.body ∧ q.parse.firstPanic? = none ∧
      (∀ t ∈ B, t.kind ∉ [TokenKind.semicolon, .openCurly, .closeCurly]) ∧
      (∀ t ∈ B.tail, t.kind ∉ Cursor.statementStarts) ∧ b.parse.firstPanic? ≠ none ∧
      all.parse.program ≠ p.parse.program ++ q.parse.program := by
  intro p q B b all
  refine ⟨by decide +kernel, by decide, by decide +kernel, by decide, by decide, by decide +kernel,
    fun h => ?_⟩
  have hlen := congrArg List.length h
  revert hlen
  decide +kernel

end Recovery

end TokenStream

end Lox

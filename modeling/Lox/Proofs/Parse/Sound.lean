import Lox.Proofs.Parse.Explained

/-!
# What is read is derived by the tolerant grammar

Every run of the parser is explained by the tolerant grammar: the tokens that are passed are derived
together with the value, and where a production has a panic, the tokens passed so far begin a
derivation.  The key facts: this holds for expressions of every precedence (`explained_expression`),
for declarations (`explained_leading`) and for programs (`explained_program`).
-/

namespace Lox

namespace Cursor

/-- A token that is no end of input can be passed. -/
theorem Closed.passes_advance {c : Cursor} (hc : c.Closed)
    (h : c.current.kind ≠ .eof ∨ c.current.literal ≠ none) : c.Passes [c.current] c.advance := by
  unfold current at *
  rcases hr : c.rest with _ | ⟨t, rest⟩
  · rw [hr] at h
    rcases h with h | h
    · exact absurd hc.1 h
    · exact absurd hc.2 h
  · exact Cursor.passes_advance hr

end Cursor

namespace Parse

open Tolerant

/-! ### Expressions -/

private theorem derives_nil (room : Nat) :
    Derives room .primary [Token.plain .kwNil] (.literal .nil) [] :=
  .nil rfl rfl

/-- An expression can be put in everywhere. -/
private theorem derives_plain (room : Nat) (p : Precedence) :
    Derives room p [Token.plain .kwNil] (.literal .nil) [] := by
  by_cases hp : p = .primary
  · rw [hp]
    exact derives_nil room
  · have hn : HeadNotIn prefixOperators [Token.plain .kwNil] := by
      simp [prefixOperators, Token.plain]
    exact Derives.loosen (.operand (derives_nil room) hn) hp

/-- The production of the precedence is explained by the derivations of the precedence. -/
private def Explains (room : Nat) (p : Precedence) : Prop :=
  ∀ c : Cursor, c.Closed → Explained False (fun k => Derives (room + k) p)
    (fun _ d => d.isAt p.joining = false) (expression room p) c

/-- The derivations of the next level, if one is left. -/
private def Deeper (room : Nat) (p : Precedence) (ts : List Token) (e : Expr)
    (bad : List Token) : Prop :=
  ∃ r, room = r + 1 ∧ Derives r p ts e bad

private theorem Deeper.unary {room : Nat} {o : Token} {ts : List Token} {e : Expr}
    {bad : List Token} (h : Deeper room .unary ts e bad) (ho : o.kind ∈ prefixOperators) :
    Derives room .unary (o :: ts) (.unary o e) bad := by
  obtain ⟨r, rfl, h⟩ := h
  exact .unary ho h

private theorem Deeper.assign {room : Nat} {ts us : List Token} {n q : Token} {v : Expr}
    {bad bad' : List Token} (h : Deeper room .assignment us v bad')
    (ht : Derives room .equality ts (.var n) bad) (hq : q.kind = .assignment) :
    Derives room .assignment (ts ++ q :: us) (.assign n v) (bad ++ bad') := by
  obtain ⟨r, rfl, h⟩ := h
  exact .assign ht hq h

private theorem Deeper.misplaced {room : Nat} {ts us : List Token} {e v : Expr} {q : Token}
    {bad bad' : List Token} (h : Deeper room .assignment us v bad')
    (ht : Derives room .equality ts e bad) (he : ∀ n, e ≠ .var n) (hq : q.kind = .assignment) :
    Derives room .assignment (ts ++ q :: us) e (bad ++ (bad' ++ [q])) := by
  obtain ⟨r, rfl, h⟩ := h
  rw [← List.append_assoc]
  exact .misplaced ht he hq h

section Level

variable {room : Nat} (hdeeper : ∀ r, room = r + 1 → ∀ p, Explains r p) {c d : Cursor}

include hdeeper

private theorem explained_deeper (p : Precedence) (hc : c.Closed) :
    Explained False (fun k => Deeper (room + k) p) (fun _ d => d.isAt p.joining = false)
      (nested (deeper room) fun inner => inner p) c := by
  cases room with
  | zero =>
    -- one more level would do
    exact .refuse rfl ⟨1, [Token.plain .kwNil], _, _, fun h => absurd rfl h, by simp, by decide, 0,
      rfl, derives_plain 0 p⟩
  | succ r => exact (hdeeper r rfl p c hc).mono id (fun h => ⟨_, by omega, h⟩) id

private theorem explained_grouping {o : Token} (ho : o.kind = .openParen) (hl : o.literal = none)
    (hc : c.Closed) (hcd : c.Passes [o] d) :
    Explained False (fun k => Derives (room + k) .primary)
      (fun _ d => d.isAt Precedence.primary.joining = false) (groupingWith (deeper room)) c := by
  cases room with
  | zero =>
    exact .refuse rfl ⟨0, [Token.plain .kwNil], _, _, fun _ => rfl, by simp, by decide,
      derives_nil _⟩
  | succ r =>
    rw [grouping_succ]
    refine .skip_bind hcd <| .bind (hdeeper r rfl .assignment d (hc.of_passes hcd)) ?_ ?_
    · intro ts e bad d' _ he _
      refine .expect_bind ?_ fun _ ht => .pure ?_ (Cursor.isAt_nil _)
      · exact ⟨0, [Token.plain .closeParen], _, [], fun _ => rfl, by simp, by decide,
          by simpa using .grouping ho hl he rfl⟩
      · simpa using .grouping ho hl he ht
    · intro k ts e bad he
      rw [Nat.add_right_comm]
      exact ⟨[Token.plain .closeParen], _, _, by decide, .grouping ho hl he rfl⟩

private theorem explains_primary : Explains room .primary := by
  intro c hc
  rw [expression_primary]
  have atToken : Explained False (fun k => Derives (room + k) .primary)
      (fun _ d => d.isAt Precedence.primary.joining = false)
      (primaryAt (deeper room) c.current) c := by
    have single {e : Expr} (h : Derives room .primary [c.current] e [])
        (ht : c.current.kind ≠ .eof ∨ c.current.literal ≠ none) :
        Explained False (fun k => Derives (room + k) .primary)
          (fun _ d => d.isAt Precedence.primary.joining = false) (skip >>= fun _ => pure e) c :=
      .skip_bind (hc.passes_advance ht) (.pure h (Cursor.isAt_nil _))
    unfold primaryAt
    split
    · next v hl => exact single (.literal hl) (.inr (by simp [hl]))
    · next hl hk => exact single (.false hk hl) (.inl (by simp [hk]))
    · next hl hk => exact single (.true hk hl) (.inl (by simp [hk]))
    · next hl hk => exact single (.nil hk hl) (.inl (by simp [hk]))
    · next hl hk => exact single (.var hk hl) (.inl (by simp [hk]))
    · next hl hk =>
      exact explained_grouping hdeeper hk hl hc (hc.passes_advance (.inl (by simp [hk])))
    · exact .refuse rfl ⟨0, [Token.plain .kwNil], _, _, fun _ => rfl, by simp, by decide,
        derives_nil _⟩
  refine atToken.congr fun c' hc' => ?_
  rw [here_bind_apply, hc'.1]

private theorem explains_unary : Explains room .unary := by
  intro c hc
  rw [expression_unary]
  refine .accept_bind (g := fun o => nested (deeper room) (fun inner => inner .unary) >>=
    fun operand => pure (.unary o operand)) (fun _ => rfl) ?_ ?_
  · intro o d hcd ho
    refine .bind (explained_deeper hdeeper .unary (hc.of_passes hcd)) ?_ ?_
    · intro ts e bad d' _ he hd'
      exact .pure (by simpa using he.unary ho) hd'
    · intro k ts e bad he
      exact completable_of (he.unary ho)
  · intro hstart
    exact ((explains_primary hdeeper c hc).head hstart (by decide) (by decide)
      (derives_nil _)).mono id (fun h => .operand h.1 h.2) id

/-- What stands behind the target of an assignment. -/
private theorem explained_assigned {target : Expr} {ts : List Token} {bad : List Token}
    (ht : Derives room .equality ts target bad) (hc : c.Closed)
    (hend : c.isAt Precedence.equality.joining = false) :
    Explained False
      (fun k us e bad' => Derives (room + k) .assignment (ts ++ us) e (bad ++ bad'))
      (fun _ d => d.isAt Precedence.assignment.joining = false)
      (accept [.assignment] >>= fun equals =>
        match equals with
        | none => pure target
        | some equals =>
          nested (deeper room) (fun inner => inner .assignment) >>= assigning target equals) c := by
  have ht' (k : Nat) : Derives (room + k) .equality ts target bad := ht.mono (Nat.le_add_right ..)
  have alone (h : c.isAt [.assignment] = false) :
      Explained False
        (fun k us e bad' => Derives (room + k) .assignment (ts ++ us) e (bad ++ bad'))
        (fun _ d => d.isAt Precedence.assignment.joining = false) (pure target) c := by
    refine .pure (by simpa using Derives.next (by decide) ht) ?_
    show c.isAt ([.assignment] ++ Precedence.equality.joining) = false
    rw [Cursor.isAt_append, h, hend]
    rfl
  -- behind a variable it does not matter where the equals sign stands
  by_cases hvar : ∃ n, target = .var n
  · obtain ⟨n, rfl⟩ := hvar
    refine .accept_bind (g := fun _ => nested (deeper room) (fun inner => inner .assignment) >>=
      fun v => pure (.assign n v)) (fun _ => rfl) ?_ alone
    intro q d hcd hq
    have hq : q.kind = .assignment := List.mem_singleton.1 hq
    refine .bind (explained_deeper hdeeper .assignment (hc.of_passes hcd)) ?_ ?_
    · intro us v bad' d' _ hv hd'
      exact .pure (by simpa using hv.assign (ht' 0) hq) hd'
    · intro k us v bad' hv
      exact completable_of (hv.assign (ht' k) hq)
  · have hvar : ∀ n, target ≠ .var n := fun n hn => hvar ⟨n, hn⟩
    refine .accept_cases (fun {q d} hcd hq => ?_) alone
    refine .step_keeping (b := target) hcd
      (explained_deeper hdeeper .assignment (hc.of_passes hcd)) ?_ id ?_
    · intro k us v bad' hv
      exact hv.misplaced (ht' k) hvar (List.mem_singleton.1 hq)
    · intro c' d' hcd'
      rw [bind_apply_of_ok (accept_of_passes hcd' hq)]
      cases target with
      | var n => exact absurd rfl (hvar n)
      | _ => rfl

private theorem explains_assignment (h : Explains room .equality) : Explains room .assignment := by
  intro c hc
  rw [expression_assignment, assigned]
  refine .bind (h c hc) ?_ ?_
  · intro ts e bad d hcd he hd
    exact explained_assigned hdeeper he (hc.of_passes hcd) hd
  · intro k ts e bad he
    exact completable_of (.next (by decide) he)

end Level

section LeftAssoc

variable {room : Nat} {p : Precedence}

/-- An operator of the precedence with its right operand. -/
private def Operation (room : Nat) (p : Precedence) (ts : List Token) (op : Token × Expr)
    (bad : List Token) : Prop :=
  ∃ us, ts = op.1 :: us ∧ op.1.kind ∈ p.operators ∧ Derives room p.next us op.2 bad

/-- Joining operands to the left follows the left recursion of the rule. -/
private theorem derives_foldl_joinLeft {ts us : List Token} {e : Expr} {bad bad' : List Token}
    {more : List (Token × Expr)} (hs : Row (Operation room p) us more bad')
    (h : Derives room p ts e bad) :
    Derives room p (ts ++ us) (more.foldl joinLeft e) (bad ++ bad') := by
  induction hs generalizing ts e bad with
  | nil => simpa using h
  | @cons _ op _ _ _ _ hop _ ih =>
    obtain ⟨us, rfl, ho, hr⟩ := hop
    have key := ih (.binary h ho hr)
    rwa [List.append_assoc, List.append_assoc] at key

private theorem Operation.mono {k : Nat} {ts : List Token} {op : Token × Expr} {bad : List Token}
    (h : Operation room p ts op bad) : Operation (room + k) p ts op bad := by
  obtain ⟨us, hts, ho, hr⟩ := h
  exact ⟨us, hts, ho, hr.mono (Nat.le_add_right ..)⟩

private theorem explained_operation (h : Explains room p.next) (hp : p.operators ≠ []) {c : Cursor}
    (hc : c.Closed ∧ c.isAt p.next.joining = false) :
    Explained False (fun k => Optional (Operation (room + k) p))
      (fun o d => (o = none → d.isAt p.joining = false) ∧
        (o ≠ none → d.Closed ∧ d.isAt p.next.joining = false))
      (operation p.operators (expression room p.next)) c := by
  unfold operation
  refine .accept_bind (g := fun o => expression room p.next >>= fun e => pure (some (o, e)))
    (fun _ => rfl) ?_ ?_
  · intro o d hcd ho
    have hd := hc.1.of_passes hcd
    have key {k : Nat} {ts : List Token} {e : Expr} {bad : List Token}
        (he : Derives (room + k) p.next ts e bad) :
        Optional (Operation (room + k) p) (o :: ts) (some (o, e)) bad :=
      .some ⟨ts, rfl, ho, he⟩
    refine .bind (h d hd) ?_ ?_
    · intro ts e bad d' hdd' he hd'
      exact .pure (by simpa using key he) ⟨by simp, fun _ => ⟨hd.of_passes hdd', hd'⟩⟩
    · intro k ts e bad he
      exact completable_of (key he)
  · intro hend
    exact .pure .none ⟨fun _ => (Cursor.isAt_joining_eq_false_iff hp).2 ⟨hend, hc.2⟩, by simp⟩

private theorem explains_of_operators (hp : p.operators ≠ []) (h : Explains room p.next) :
    Explains room p := by
  have hnext : p ∉ [Precedence.unary, .primary] := by
    intro hmem
    apply hp
    revert hmem
    cases p <;> decide
  intro c hc
  rw [expression_of_operators room hp, leftAssoc_eq]
  refine .bind (h c hc) ?_ ?_
  · intro ts e bad d hcd he hd
    have first (k : Nat) : Derives (room + k) p ts e bad :=
      .next hnext (he.mono (Nat.le_add_right ..))
    have operations : Explained False (fun k => Row (Operation (room + k) p))
        (fun _ d => d.isAt p.joining = false)
        (many (operation p.operators (expression room p.next))) d := by
      refine .many ?_ Operation.mono (fun _ hI => explained_operation h hp hI)
        ⟨hc.of_passes hcd, hd⟩
      rintro _ _ _ ⟨us, rfl, -, -⟩
      simp
    refine .bind operations ?_ ?_
    · intro us more bad' d' _ hmore hd'
      exact .pure (by simpa using derives_foldl_joinLeft hmore (first 0)) hd'
    · intro k us more bad' hmore
      exact completable_of (derives_foldl_joinLeft hmore (first k))
  · intro k ts e bad he
    exact completable_of (.next hnext he)

end LeftAssoc

private theorem explains (room : Nat) (p : Precedence) : Explains room p := by
  -- on the levels that are left, and within one from the operands to the loosest precedence
  induction room using Nat.strongRecOn generalizing p with
  | ind room ih =>
    have hdeeper : ∀ r, room = r + 1 → ∀ p, Explains r p := fun r hr => ih r (by omega)
    have unary := explains_unary hdeeper
    have factor : Explains room .factor := explains_of_operators (by decide) unary
    have term : Explains room .term := explains_of_operators (by decide) factor
    have comparison : Explains room .comparison := explains_of_operators (by decide) term
    have equality : Explains room .equality := explains_of_operators (by decide) comparison
    have assignment := explains_assignment hdeeper equality
    cases p with
    | default =>
      intro c hc
      rw [expression_default]
      exact (assignment c hc).mono id (fun h => .next (by decide) h) id
    | assignment => exact assignment
    | equality => exact equality
    | comparison => exact comparison
    | term => exact term
    | factor => exact factor
    | unary => exact unary
    | primary => exact explains_primary hdeeper

theorem explained_expression {rec : Prop} (room : Nat) (p : Precedence) {c : Cursor}
    (hc : c.Closed) : Explained rec (fun k => Derives (room + k) p)
      (fun _ d => d.isAt p.joining = false) (expression room p) c :=
  (explains room p c hc).mono False.elim id id

/-- What is read as an expression is derived, nothing is noted but misplaced equals signs, and no
token follows that goes on the expression. -/
theorem exists_of_expression {room : Nat} {p : Precedence} {c d : Cursor} {e : Expr}
    {notes : List Note} (hc : c.Closed) (h : expression room p c = ⟨.ok e, d, notes⟩) :
    ∃ ts bad, c.Passes ts d ∧ Derives room p ts e bad ∧ Note.Misplaced notes bad ∧
      d.isAt p.joining = false := by
  have explained : Explained False (fun k => Derives (room + k) p)
      (fun _ d => d.isAt p.joining = false) (expression room p) c := explained_expression room p hc
  obtain @⟨ts, d', ending, hpass, hallowed, hrun⟩ := explained
  have hrun := hrun c d' hpass (.refl d')
  cases ending with
  | value a bad =>
    obtain ⟨n, hn, hrun⟩ := hrun
    rw [h] at hrun
    cases hrun
    exact ⟨ts, bad, hpass, hallowed.1, hn, hallowed.2⟩
  | fault cause bad =>
    obtain ⟨n, -, hrun⟩ := hrun
    rw [h] at hrun
    cases hrun
  | panic cause => exact hallowed.1.elim

theorem derives_of_expression {room : Nat} {p : Precedence} {c d : Cursor} {e : Expr}
    {notes : List Note} (hc : c.Closed) (h : expression room p c = ⟨.ok e, d, notes⟩) :
    ∃ ts bad, c.Passes ts d ∧ Derives room p ts e bad := by
  obtain ⟨ts, bad, hpass, hderives, -⟩ := exists_of_expression hc h
  exact ⟨ts, bad, hpass, hderives⟩

/-! ### Statements -/

section Statement

variable {room : Nat} {c d : Cursor} {rec : Prop}

/-- A statement that ends with an expression and a semicolon. -/
private theorem explained_terminated {S : Nat → List Token → Expr → List Token → Prop}
    {R : Nat → List Token → Stmt → List Token → Prop} {Q : Expr → Cursor → Prop} {p : Parse Expr}
    (message : String) (f : Expr → Stmt) (h : Explained rec S Q p c)
    (hR : ∀ {k ts e bad s}, S k ts e bad → s.kind = .semicolon → R k (ts ++ [s]) (f e) bad) :
    Explained rec R (fun _ _ => True)
      (p >>= fun e => expect .semicolon message >>= fun _ => pure (f e)) c := by
  refine .bind h ?_ ?_
  · intro ts e bad d _ he _
    refine .expect_bind ?_ fun _ hs => .pure (by simpa using hR he hs) trivial
    exact ⟨0, [Token.plain .semicolon], f e, [], fun _ => rfl, by simp, by decide,
      by simpa using hR he rfl⟩
  · intro k ts e bad he
    exact ⟨[Token.plain .semicolon], _, _, by decide, hR he rfl⟩

private theorem explained_print (hk : c.current.kind = .kwPrint) (hc : c.Closed) :
    Explained rec (fun k => Declaration (room + k)) (fun _ _ => True) (leading room .kwPrint) c := by
  have hcd := hc.passes_advance (.inl (by simp [hk]))
  have h := @explained_expression rec room .assignment _ (hc.of_passes hcd)
  rw [leading_kwPrint]
  exact .skip_bind hcd (explained_terminated _ .print h fun he hs => .print hk he hs)

private theorem explained_expressionStmt (hk : c.current.kind ∉ statementKinds) (hc : c.Closed) :
    Explained rec (fun k => Declaration (room + k)) (fun _ _ => True)
      (leading room c.current.kind) c := by
  have hstart : c.isAt statementKinds = false := by
    rcases hr : c.rest with _ | ⟨t, rest⟩
    · simp [Cursor.isAt, hr]
    · have hcd := Cursor.passes_advance hr
      exact hcd.isAt_eq_false (by rwa [hcd.current_eq] at hk)
  have h := (@explained_expression rec room .assignment c hc).head hstart (by decide)
    (by decide) (derives_plain _ _)
  rw [leading_of_not_mem room hk]
  exact explained_terminated _ .expression h fun he hs => .expression he.1 he.2 hs

/-- The initializer of a variable, if there is one. -/
private inductive Initializer (room : Nat) :
    List Token → Option Expr → (bad : List Token) → Prop
  | none : Initializer room [] none []
  | some {q ts e bad} (hq : q.kind = .assignment) (h : Derives room .assignment ts e bad) :
      Initializer room (q :: ts) (some e) bad

private theorem Initializer.declaration {ts : List Token} {o : Option Expr} {bad : List Token}
    {k n s : Token} (h : Initializer room ts o bad) (hk : k.kind = .kwVar)
    (hn : n.kind = .identifier) (hs : s.kind = .semicolon) :
    Declaration room (k :: n :: ts ++ [s]) (.varDecl n o) bad := by
  cases h with
  | none => exact .var hk hn hs
  | some hq h => exact .init hk hn hq h hs

private theorem explained_initializer (hc : c.Closed) :
    Explained rec (fun k => Initializer (room + k)) (fun _ _ => True)
      (initializerWith (expression room .assignment)) c := by
  unfold initializerWith
  refine .accept_bind (g := fun _ => expression room .assignment >>= fun e => pure (some e))
    (fun _ => rfl) ?_ fun _ => .pure .none trivial
  intro q d hcd hq
  have hq : q.kind = .assignment := List.mem_singleton.1 hq
  refine .bind (explained_expression room .assignment (hc.of_passes hcd)) ?_ ?_
  · intro ts e bad _ _ he _
    exact .pure (by simpa using Initializer.some hq he) trivial
  · intro k ts e bad he
    exact completable_of (.some hq he)

private theorem explained_varDecl (hk : c.current.kind = .kwVar) (hc : c.Closed) :
    Explained rec (fun k => Declaration (room + k)) (fun _ _ => True) (leading room .kwVar) c := by
  have hcd := hc.passes_advance (.inl (by simp [hk]))
  rw [leading_kwVar]
  refine .skip_bind hcd (.expect_bind ?_ ?_)
  · exact ⟨0, [Token.plain .identifier, Token.plain .semicolon], _, _, fun _ => rfl, by simp,
      by decide, .var hk rfl rfl⟩
  · intro n d hd hn
    refine .bind (explained_initializer ((hc.of_passes hcd).of_passes hd)) ?_ ?_
    · intro ts o bad d' _ ho _
      refine .expect_bind ?_ fun _ hs => .pure (by simpa using ho.declaration hk hn hs) trivial
      exact ⟨0, [Token.plain .semicolon], _, [], fun _ => rfl, by simp, by decide,
        by simpa using ho.declaration hk hn rfl⟩
    · intro k ts o bad ho
      exact ⟨[Token.plain .semicolon], _, _, by decide, ho.declaration hk hn rfl⟩

/-! ### Declarations -/

private theorem Explained.recovering {R : Nat → List Token → Stmt → List Token → Prop}
    {p : Parse Stmt} (h : Explained rec R (fun _ _ => True) p c) :
    Explained True (fun k => Present (R k)) (fun _ _ => True) (recovering p) c := by
  obtain @⟨ts, d, e, hc, ha, h⟩ := h
  have hbegins {cause : Cause} (h : Begins R cause ts) : Begins (fun k => Present (R k)) cause ts :=
    h.trans fun h => completable_of ⟨_, rfl, h⟩
  cases e with
  | value s bad =>
    exact .mk (e := .value (some s) bad) hc ⟨⟨s, rfl, ha.1⟩, trivial⟩
      fun c' d' hc' hd' => Yields.recovering (h c' d' hc' hd')
  | fault cause bad =>
    refine .mk (e := .panic cause) hc ⟨trivial, ha.1, hbegins ha.2⟩ fun c' d' hc' hd' => ?_
    exact firstPanic?_recovering (Fails.firstPanic?_eq (h c' d' hc' hd') ha.1)
  | panic cause =>
    exact .mk (e := .panic cause) hc ⟨trivial, ha.2.1, hbegins ha.2.2⟩
      fun c' d' hc' hd' => firstPanic?_recovering (h c' d' hc' hd')

/-- The declarations of the level are explained. -/
private def ExplainsDeclaration (room : Nat) : Prop :=
  ∀ c : Cursor, c.Closed → Explained True (fun k => Present (Declaration (room + k)))
    (fun _ _ => True) (declaration .standard room) c

/-- The shortest declaration. -/
private theorem declaration_plain (room : Nat) :
    Declaration room [Token.plain .kwNil, Token.plain .semicolon] (.expression (.literal .nil)) [] :=
  .expression (derives_plain room .assignment) (by simp [Token.plain, statementKinds]) rfl

private theorem explained_item {stop : Cursor → Bool} {kinds : List TokenKind}
    (hs : Stops stop kinds) (hdecl : ExplainsDeclaration room) (hc : c.Closed) :
    Explained True (fun k => Optional (Present (Item kinds (room + k))))
      (fun o d => (o = none → stop d = true) ∧ (o ≠ none → d.Closed)) (item stop room) c := by
  by_cases hstop : stop c = true
  · have ended : Explained True (fun k => Optional (Present (Item kinds (room + k))))
        (fun o d => (o = none → stop d = true) ∧ (o ≠ none → d.Closed)) (pure none) c :=
      .pure .none ⟨fun _ => hstop, by simp⟩
    refine ended.congr fun c' hc' => ?_
    rw [item, hs.looksLike hc', if_pos hstop]
    rfl
  · have hplain : (Token.plain .kwNil).kind ∉ kinds := fun h => by
      simpa [Token.plain] using hs.subset h
    have h := (hdecl c hc).head (hs.isAt_eq_false (by simpa using hstop)) hplain (by decide)
      ⟨_, rfl, declaration_plain _⟩
    have item_of {k : Nat} {ts : List Token} {o : Option Stmt} {bad : List Token}
        (h : Present (Declaration (room + k)) ts o bad ∧ HeadNotIn kinds ts) :
        Optional (Present (Item kinds (room + k))) ts (some o) bad := by
      obtain ⟨⟨s, rfl, h⟩, hn⟩ := h
      exact .some ⟨s, rfl, h, hn⟩
    have continued : Explained True (fun k => Optional (Present (Item kinds (room + k))))
        (fun o d => (o = none → stop d = true) ∧ (o ≠ none → d.Closed))
        (declaration .standard room >>= fun s => pure (some s)) c := by
      refine .bind h ?_ ?_
      · intro ts o bad d hcd ho _
        exact .pure (by simpa using item_of ho) ⟨by simp, fun _ => hc.of_passes hcd⟩
      · intro k ts o bad ho
        exact completable_of (item_of ho)
    refine continued.congr fun c' hc' => ?_
    rw [item, hs.looksLike hc', if_neg hstop]
    rfl

private theorem explained_items {stop : Cursor → Bool} {kinds : List TokenKind}
    (hs : Stops stop kinds) (hdecl : ExplainsDeclaration room) (hc : c.Closed) :
    Explained True (fun k => Row (Present (Item kinds (room + k)))) (fun _ d => stop d = true)
      (many (item stop room)) c := by
  refine .many ?_ ?_ (fun _ hI => explained_item hs hdecl hI) hc
  · rintro ts o bad ⟨s, rfl, h, -⟩
    exact h.ne_nil
  · rintro k ts o bad ⟨s, rfl, h, hn⟩
    exact ⟨s, rfl, h.mono (Nat.le_add_right ..), hn⟩

private theorem program_reduceOption {kinds : List TokenKind} {ts : List Token}
    {os : List (Option Stmt)} {bad : List Token} (h : Row (Present (Item kinds room)) ts os bad) :
    Program kinds room ts os.reduceOption bad := by
  obtain ⟨body, rfl, hrow⟩ := row_present_iff.1 h
  rw [reduceOption_map_some]
  exact hrow.program

private theorem explained_block (hdeeper : ∀ r, room = r + 1 → ExplainsDeclaration r)
    (hk : c.current.kind = .openCurly) (hc : c.Closed) :
    Explained True (fun k => Declaration (room + k)) (fun _ _ => True) (leading room .openCurly)
      c := by
  cases room with
  | zero =>
    exact .refuse rfl ⟨0, _, _, _, fun _ => rfl, by simp, by decide, declaration_plain _⟩
  | succ r =>
    have hcd := hc.passes_advance (.inl (by simp [hk]))
    rw [leading_openCurly]
    refine .skip_bind hcd (.bind
      (explained_items stops_blockEnd (hdeeper r rfl) (hc.of_passes hcd)) ?_ ?_)
    · intro ts os bad d _ hos _
      have hprogram := program_reduceOption hos
      refine .expect_bind ?_ fun _ ht => .pure (by simpa using .block hk hprogram ht) trivial
      exact ⟨0, [Token.plain .closeCurly], _, [], fun _ => rfl, by simp, by decide,
        by simpa using .block hk hprogram rfl⟩
    · intro k ts os bad hos
      rw [Nat.add_right_comm]
      exact ⟨[Token.plain .closeCurly], _, _, by decide, .block hk (program_reduceOption hos) rfl⟩

/-- Only a block may go on behind a panic. -/
private theorem explains_leading (hdeeper : ∀ r, room = r + 1 → ExplainsDeclaration r)
    (hc : c.Closed) : Explained (c.current.kind = .openCurly) (fun k => Declaration (room + k))
      (fun _ _ => True) (leading room c.current.kind) c := by
  by_cases hk : c.current.kind ∈ statementKinds
  · simp only [statementKinds, List.mem_cons, List.not_mem_nil, or_false] at hk
    rcases hk with hk | hk | hk
    · rw [hk]
      exact explained_varDecl hk hc
    · rw [hk]
      exact explained_print hk hc
    · rw [hk]
      exact (explained_block hdeeper hk hc).mono (fun _ => rfl) id id
  · exact explained_expressionStmt hk hc

private theorem explainsDeclaration (room : Nat) : ExplainsDeclaration room := by
  induction room using Nat.strongRecOn with
  | ind room ih =>
    intro c hc
    have hdeeper : ∀ r, room = r + 1 → ExplainsDeclaration r := fun r hr => ih r (by omega)
    refine (explains_leading hdeeper hc).recovering.congr fun c' hc' => ?_
    rw [declaration_apply, hc'.1]

theorem explained_leading (room : Nat) (hc : c.Closed) :
    Explained (c.current.kind = .openCurly) (fun k => Declaration (room + k)) (fun _ _ => True)
      (leading room c.current.kind) c :=
  explains_leading (fun r _ => explainsDeclaration r) hc

/-- A statement other than a block has at most one panic, and nothing is read behind it. -/
theorem leading_of_ne_openCurly (room : Nat) {c : Cursor} (hc : c.Closed)
    (hk : c.current.kind ≠ .openCurly) :
    ∃ ts d, c.Passes ts d ∧
      ((∃ s bad, Declaration room ts s bad ∧ Yields (leading room c.current.kind) c s bad d) ∨
        ∃ cause bad, Fails (leading room c.current.kind) c cause bad d) := by
  obtain @⟨ts, d, e, hcd, ha, h⟩ := explained_leading room hc
  have hrun := h c d hcd (.refl d)
  refine ⟨ts, d, hcd, ?_⟩
  cases e with
  | value s bad => exact .inl ⟨s, bad, ha.1, hrun⟩
  | fault cause bad => exact .inr ⟨cause, bad, hrun⟩
  | panic cause => exact absurd ha.1 hk

theorem explained_program (room : Nat) (hc : c.Closed) :
    Explained True (fun k => Program [] (room + k)) (fun _ d => d.atEnd = true)
      (program .standard room) c := by
  rw [program_eq]
  refine .bind (explained_items stops_atEnd (explainsDeclaration room) hc) ?_ ?_
  · intro ts os bad d _ hos hd
    exact .pure (by simpa using program_reduceOption hos) hd
  · intro k ts os bad hos
    exact completable_of (program_reduceOption hos)

end Statement

end Parse

end Lox

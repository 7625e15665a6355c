import Lox.Parse.Forward
import Lox.Session
import Lox.Proofs.Cursor.Stream
import Lox.Proofs.Parse.Stream

/-!
# Progress

The parser comes to an end on every stream.  A production that ends with a value has passed a token,
and a declaration has done so even if it ends with a fault, since recovery does not stop at the
token where it begins (`Session.index_lt_of_read`).  So a repetition of productions that is left to
itself ends (`repeats_many`): nothing depends on the guard in `many`, which ends a repetition that
does not get on.  The descent between them is bounded by the levels of nesting and of precedence.
The key fact: the repetitions of the grammar end, and a program is read up to the first end of input
(`TokenStream.parse_ends`).
-/

namespace Lox

namespace Cursor

/-- Recovery leaves the token behind at which the statement began. -/
theorem advance_le_synchronize_of_le {c d : Cursor} (h : c ≤ d) : c.advance ≤ d.synchronize := by
  rcases eq_or_advance_le h with rfl | h
  · exact d.advance_le_synchronize
  · exact le_trans h d.le_synchronize

theorem length_rest_lt_of_advance_le {c d : Cursor} (hc : c.atEnd = false) (h : c.advance ≤ d) :
    d.rest.length < c.rest.length := by
  have hle := length_rest_le h
  rcases hr : c.rest with _ | ⟨t, rest⟩
  · simp [atEnd, hr] at hc
  · have hstep := (passes_advance hr).length_rest
    rw [hr, List.length_singleton] at hstep
    omega

end Cursor

namespace Parse

variable {α β : Type}

/-! ### Productions that pass a token -/

/-- Where a token is left, the production passes it or ends with a fault. -/
def Productive (p : Parse α) : Prop :=
  ∀ c : Cursor, c.atEnd = false → ∀ a, (p c).result = .ok a → c.advance ≤ (p c).cursor

theorem productive_refuse (cause : Cause) : Productive (refuse cause : Parse α) :=
  fun _ _ _ h => by cases h

/-- The first part passes the token. -/
theorem Productive.bind {p : Parse α} {f : α → Parse β} (hp : Productive p)
    (hf : ∀ a, Forward (f a)) : Productive (p >>= f) := by
  intro c hc b hb
  rcases hrun : p c with ⟨e | a, d, notes⟩
  · rw [bind_apply_of_error hrun] at hb
    cases hb
  · have hd := hp c hc a (by rw [hrun])
    rw [hrun] at hd
    rw [bind_apply_of_ok hrun]
    exact Cursor.le_trans hd (hf a d)

theorem productive_skip_bind {f : Unit → Parse α} (hf : Forward (f ())) :
    Productive (skip >>= f) :=
  fun c _ _ _ => hf c.advance

theorem productive_here_bind {f : Token → Parse α} (hf : ∀ t, Productive (f t)) :
    Productive (here >>= f) :=
  fun c => hf c.current c

/-- The token is passed at once, or it is left to what follows. -/
theorem productive_accept_bind {f : Option Site → Parse α} (kinds : List TokenKind)
    (hnone : Productive (f none)) (hsome : ∀ s, Forward (f (some s))) :
    Productive (accept kinds >>= f) := by
  intro c hc b hb
  cases hk : c.isAt kinds with
  | false =>
    rw [bind_apply_of_ok (accept_of_isAt_eq_false hk)] at hb ⊢
    exact hnone c hc b hb
  | true =>
    obtain ⟨t, ht, hpass⟩ := Cursor.exists_passes_of_isAt hk
    rw [bind_apply_of_ok (accept_of_passes hpass ht)]
    exact hsome _ c.advance

theorem Productive.nested {deeper : Option β} {p : β → Parse α}
    (h : ∀ inner ∈ deeper, Productive (p inner)) : Productive (nested deeper p) := by
  cases deeper with
  | none => exact productive_refuse _
  | some inner => exact h inner rfl

theorem Productive.map {p : Parse α} (hp : Productive p) (f : α → β) : Productive (f <$> p) :=
  hp.bind fun a => forward_pure (f a)

theorem map_apply (p : Parse α) (f : α → β) (c : Cursor) :
    (f <$> p) c = ⟨(p c).result.map f, (p c).cursor, (p c).notes⟩ := by
  rcases h : p c with ⟨e | a, d, notes⟩
  · exact bind_apply_of_error h
  · exact (bind_apply_of_ok (f := fun a => pure (f a)) h).trans
      (congrArg (Outcome.mk _ d) (List.append_nil notes))

/-! ### Expressions -/

theorem forward_operation (operators : List TokenKind) {operand : Parse Expr}
    (h : Forward operand) : Forward (operation operators operand) := by
  refine (forward_accept _).bind ?_
  rintro (_ | operator)
  · exact forward_pure _
  · exact h.bind fun _ => forward_pure _

theorem Productive.leftAssoc (operators : List TokenKind) {operand : Parse Expr}
    (hp : Productive operand) (hf : Forward operand) : Productive (leftAssoc operators operand) :=
  hp.bind fun _ => (forward_operation operators hf).many.bind fun _ => forward_pure _

theorem productive_groupingWith (room : Nat) : Productive (groupingWith (deeper room)) :=
  Productive.nested fun inner hi => productive_skip_bind <|
    (forward_of_mem_deeper room inner hi _).bind fun _ => (forward_expect _ _).bind fun _ =>
      forward_pure _

private theorem productive_primary (room : Nat) : Productive (expression room .primary) := by
  have literal (value : Literal) : Productive (skip >>= fun _ => pure (Expr.literal value)) :=
    productive_skip_bind (forward_pure _)
  rw [expression_primary]
  refine productive_here_bind fun token => ?_
  unfold primaryAt
  split
  · exact literal _
  · exact literal _
  · exact literal _
  · exact literal _
  · exact productive_skip_bind (forward_pure _)
  · exact productive_groupingWith room
  · exact productive_refuse _

private theorem productive_unary (room : Nat) : Productive (expression room .unary) := by
  rw [expression_unary]
  refine productive_accept_bind _ (productive_primary room) fun operator => ?_
  exact (Forward.nested fun inner hi => forward_of_mem_deeper room inner hi _).bind fun _ =>
    forward_pure _

private theorem productive_assignment {room : Nat}
    (h : Productive (expression room .equality)) : Productive (expression room .assignment) := by
  rw [expression_assignment]
  refine h.bind fun target => (forward_accept _).bind ?_
  rintro (_ | equals)
  · exact forward_pure _
  · refine (Forward.nested fun inner hi => forward_of_mem_deeper room inner hi _).bind fun _ => ?_
    unfold assigning
    split
    · exact forward_pure _
    · exact (forward_note _).bind fun _ => forward_pure _

/-- Every expression begins with a token of its own, at whatever level it is read. -/
theorem productive_expression (room : Nat) (p : Precedence) : Productive (expression room p) := by
  have operators {p : Precedence} (hp : p.operators ≠ [])
      (h : Productive (expression room p.next)) : Productive (expression room p) := by
    rw [expression_of_operators room hp]
    exact h.leftAssoc _ (forward_expression room _)
  have factor : Productive (expression room .factor) :=
    operators (by decide) (productive_unary room)
  have term : Productive (expression room .term) := operators (by decide) factor
  have comparison : Productive (expression room .comparison) := operators (by decide) term
  have equality : Productive (expression room .equality) := operators (by decide) comparison
  cases p with
  | default => exact expression_default room ▸ productive_assignment equality
  | assignment => exact productive_assignment equality
  | equality => exact equality
  | comparison => exact comparison
  | term => exact term
  | factor => exact factor
  | unary => exact productive_unary room
  | primary => exact productive_primary room

theorem productive_binary (room : Nat) (p : Precedence) : Productive (binary room p) :=
  (productive_expression room p.next).leftAssoc _ (forward_expression room _)

/-! ### Statements -/

/-- What a rule reads begins with a token of its own: that of an expression, or the one that has
chosen the rule. -/
theorem productive_ruledWith {expr : Parse Expr} {deeper : Option (Parse (Option Stmt))}
    (he : Productive expr) (hf : Forward expr) (hd : ∀ inner ∈ deeper, Forward inner)
    (rule : StatementRule) : Productive (ruledWith expr deeper rule) := by
  cases rule with
  | statement => exact he.bind fun _ => (forward_expect _ _).bind fun _ => forward_pure _
  | print => exact productive_skip_bind (forward_terminated hf _ _)
  | varDecl => exact productive_skip_bind (forward_varDecl hf)
  | block =>
    exact Productive.nested fun inner hi => productive_skip_bind (forward_block (hd inner hi))

theorem forward_of_mem_deeperDeclaration (rules : Rules) (room : Nat) :
    ∀ inner ∈ deeperDeclaration rules room, Forward inner := by
  intro inner hi
  cases room with
  | zero => cases hi
  | succ room =>
    cases hi
    exact forward_declaration rules room

theorem productive_statement (rules : Rules) (room : Nat) (rule : StatementRule) :
    Productive (statement rules room rule) := by
  have ruled (rule : StatementRule) :
      Productive (ruledWith (expression room .default) (deeperDeclaration rules room) rule) :=
    productive_ruledWith (productive_expression room _) (forward_expression room _)
      (forward_of_mem_deeperDeclaration rules room) rule
  cases rule with
  | statement => exact productive_here_bind fun token => ruled _
  | print => exact ruled _
  | varDecl => exact ruled _
  | block => exact ruled _

theorem productive_declared (rules : Rules) (room : Nat) : Productive (declared rules room) :=
  productive_here_bind fun _ => productive_statement rules room _

theorem forward_declared (rules : Rules) (room : Nat) : Forward (declared rules room) :=
  forward_here.bind fun _ => forward_statement rules room _

/-- A declaration passes a token, be it read or missing. -/
theorem advance_le_declaration (rules : Rules) (room : Nat) {c : Cursor} (hc : c.atEnd = false) :
    c.advance ≤ (declaration rules room c).cursor := by
  rw [declaration_eq_recovering_declared]
  rcases hrun : declared rules room c with ⟨f | stmt, d, notes⟩
  · have hd := forward_declared rules room c
    rw [hrun] at hd
    rw [recovering_of_error hrun]
    exact Cursor.advance_le_synchronize_of_le hd
  · have hd := productive_declared rules room c hc stmt (by rw [hrun])
    rw [hrun] at hd
    rw [recovering_of_ok hrun]
    exact hd

/-! ### Repetitions that are left to themselves -/

/-- Repeated from `c` on until it gives nothing, the production ends with the outcome `o`, after `n`
rounds in which it gives something.  Nothing is asked of the cursors. -/
inductive Repeats (p : Parse (Option α)) : Nat → Cursor → Outcome (List α) → Prop
  | none {c d : Cursor} {notes : List Note} (h : p c = ⟨.ok none, d, notes⟩) :
      Repeats p 0 c ⟨.ok [], d, notes⟩
  | error {c d : Cursor} {f : Fault} {notes : List Note} (h : p c = ⟨.error f, d, notes⟩) :
      Repeats p 0 c ⟨.error f, d, notes⟩
  | some {n : Nat} {c d : Cursor} {a : α} {notes : List Note} {o : Outcome (List α)}
      (h : p c = ⟨.ok (some a), d, notes⟩) (ho : Repeats p n d o) :
      Repeats p (n + 1) c ⟨o.result.map (a :: ·), o.cursor, notes ++ o.notes⟩

/-- From everywhere there is exactly one end of the repetition, the one that `many` comes to, and
there are no more rounds than there are tokens. -/
def Ends (p : Parse (Option α)) : Prop :=
  ∀ c : Cursor, ∃ n ≤ c.rest.length, ∀ m o, Repeats p m c o ↔ m = n ∧ o = many p c

theorem Repeats.unique {p : Parse (Option α)} {m n : Nat} {c : Cursor} {o o' : Outcome (List α)}
    (h : Repeats p m c o) (h' : Repeats p n c o') : m = n ∧ o = o' := by
  induction h generalizing n o' with
  | none h =>
    cases h' with
    | none h' => cases h.symm.trans h'; exact ⟨rfl, rfl⟩
    | error h' => cases h.symm.trans h'
    | some h' => cases h.symm.trans h'
  | error h =>
    cases h' with
    | none h' => cases h.symm.trans h'
    | error h' => cases h.symm.trans h'; exact ⟨rfl, rfl⟩
    | some h' => cases h.symm.trans h'
  | some h _ ih =>
    cases h' with
    | none h' => cases h.symm.trans h'
    | error h' => cases h.symm.trans h'
    | some h' ho' =>
      cases h.symm.trans h'
      obtain ⟨rfl, rfl⟩ := ih ho'
      exact ⟨rfl, rfl⟩

/-- Where the production gives something, it has passed a token. -/
def GetsOn (p : Parse (Option α)) : Prop :=
  ∀ (c : Cursor) (a : α), (p c).result = .ok (some a) → c.atEnd = false ∧ c.advance ≤ (p c).cursor

theorem GetsOn.length_rest_lt {p : Parse (Option α)} (hp : GetsOn p) {c d : Cursor} {a : α}
    {notes : List Note} (h : p c = ⟨.ok (some a), d, notes⟩) : d.rest.length < c.rest.length := by
  obtain ⟨hc, hle⟩ := hp c a (by rw [h])
  rw [h] at hle
  exact Cursor.length_rest_lt_of_advance_le hc hle

theorem repeats_many {p : Parse (Option α)} (hp : GetsOn p) (c : Cursor) :
    ∃ n ≤ c.rest.length, Repeats p n c (many p c) := by
  fun_induction many p c with
  | case1 c a d notes h hlt o ih =>
    obtain ⟨n, hn, ho⟩ := ih
    exact ⟨n + 1, by omega, .some h ho⟩
  | case2 c a d notes h hlt => exact absurd (hp.length_rest_lt h) hlt
  | case3 c d notes h => exact ⟨0, Nat.zero_le _, .none h⟩
  | case4 c f d notes h => exact ⟨0, Nat.zero_le _, .error h⟩

theorem GetsOn.ends {p : Parse (Option α)} (hp : GetsOn p) : Ends p := by
  intro c
  obtain ⟨n, hn, h⟩ := repeats_many hp c
  refine ⟨n, hn, fun m o => ⟨fun h' => h'.unique h, ?_⟩⟩
  rintro ⟨rfl, rfl⟩
  exact h

/-! ### The repetitions of the grammar -/

theorem getsOn_operation (operators : List TokenKind) {operand : Parse Expr}
    (hf : Forward operand) : GetsOn (operation operators operand) := by
  intro c a h
  cases hk : c.isAt operators with
  | false =>
    rw [operation, bind_apply_of_ok (accept_of_isAt_eq_false hk)] at h
    cases h
  | true =>
    obtain ⟨t, ht, hpass⟩ := Cursor.exists_passes_of_isAt hk
    refine ⟨hpass.atEnd_eq, ?_⟩
    rw [operation, bind_apply_of_ok (accept_of_passes hpass ht)]
    exact (hf.bind fun _ => forward_pure _) c.advance

theorem getsOn_upTo {stop : Cursor → Bool} {p : Parse α}
    (hstop : ∀ c : Cursor, c.atEnd = true → stop c = true)
    (hp : ∀ c : Cursor, c.atEnd = false → c.advance ≤ (p c).cursor) : GetsOn (upTo stop p) := by
  intro c a h
  unfold upTo at h ⊢
  split at h
  · cases h
  · next hc =>
    have hend : c.atEnd = false := by
      rw [← Bool.not_eq_true]
      exact fun hend => hc (hstop c hend)
    rw [if_neg hc, map_apply]
    exact ⟨hend, hp c hend⟩

theorem getsOn_item {stop : Cursor → Bool} {kinds : List TokenKind} (hs : Stops stop kinds)
    (room : Nat) : GetsOn (item stop room) :=
  getsOn_upTo (fun _ hend => hs.iff.2 (.inr hend)) fun _ => advance_le_declaration .standard room

/-- A round of the way to the next statement boundary. -/
def approach : Parse (Option Unit) := fun c =>
  if c.atEnd || c.previous.kind = .semicolon || c.current.isOneOf Cursor.statementStarts then
    ⟨.ok none, c, []⟩
  else ⟨.ok (some ()), c.advance, []⟩

theorem getsOn_approach : GetsOn approach := by
  intro c a h
  cases hc : c.atEnd with
  | true =>
    rw [approach, hc] at h
    cases h
  | false =>
    refine ⟨rfl, ?_⟩
    unfold approach at h ⊢
    split at h
    · cases h
    · next hk =>
      rw [if_neg hk]
      exact c.advance.le_refl

private theorem toBoundary_eq_many (x : Token) (passed rest : List Token) (eof : Token) :
    Cursor.toBoundary (x :: passed) rest eof = (many approach ⟨x :: passed, rest, eof⟩).cursor := by
  induction rest generalizing x passed with
  | nil =>
    have hstop : approach ⟨x :: passed, [], eof⟩ = ⟨.ok none, ⟨x :: passed, [], eof⟩, []⟩ := rfl
    rw [many_of_none hstop, Cursor.toBoundary]
  | cons t rest ih =>
    have hround : approach ⟨x :: passed, t :: rest, eof⟩ =
        if x.kind = .semicolon || t.isOneOf Cursor.statementStarts then
          ⟨.ok none, ⟨x :: passed, t :: rest, eof⟩, []⟩
        else ⟨.ok (some ()), ⟨t :: x :: passed, rest, eof⟩, []⟩ := rfl
    have hstep : Cursor.toBoundary (x :: passed) (t :: rest) eof =
        if x.kind = .semicolon || t.isOneOf Cursor.statementStarts then
          ⟨x :: passed, t :: rest, eof⟩
        else Cursor.toBoundary (t :: x :: passed) rest eof := rfl
    split at hround
    · next hstop => rw [hstep, if_pos hstop, many_of_none hround]
    · next hstop => rw [hstep, if_neg hstop, many_of_some hround (by simp), ih]

/-- Recovery passes a token and then repeats the round. -/
theorem synchronize_eq_many (c : Cursor) : c.synchronize = (many approach c.advance).cursor := by
  unfold Cursor.synchronize Cursor.advance
  cases hr : c.rest with
  | nil =>
    have hround : approach c = ⟨.ok none, c, []⟩ := by simp [approach, Cursor.atEnd, hr]
    rw [many_of_none hround]
  | cons t rest => exact toBoundary_eq_many t c.passed rest c.eof

/-! ### Where repetitions end -/

theorem exists_declaration (room : Nat) (c : Cursor) :
    ∃ stmt d notes, declaration .standard room c = ⟨.ok stmt, d, notes⟩ := by
  obtain ⟨stmt, hstmt⟩ := settled_recovering (leading room c.current.kind) c
  rw [← declaration_apply] at hstmt
  exact ⟨stmt, _, _, by rw [← hstmt]⟩

theorem stop_of_item_eq_none {stop : Cursor → Bool} {room : Nat} {c d : Cursor} {notes : List Note}
    (h : item stop room c = ⟨.ok none, d, notes⟩) : stop d = true := by
  rcases eq_or_exists_of_item_eq_ok h with ⟨-, rfl, -⟩ | ⟨a, ha, -⟩
  · cases hstop : stop d with
    | true => rfl
    | false =>
      obtain ⟨stmt, e, notes', hrun⟩ := exists_declaration room d
      rw [item_apply hstop hrun] at h
      cases h
  · cases ha

/-- A repetition of declarations ends where it is to end. -/
theorem stop_cursor_of_repeats {stop : Cursor → Bool} {room n : Nat} {c : Cursor}
    {o : Outcome (List (Option Stmt))} (h : Repeats (item stop room) n c o) :
    stop o.cursor = true := by
  induction h with
  | none h => exact stop_of_item_eq_none h
  | @error c d f notes h =>
    obtain ⟨a, ha⟩ := settled_item stop room c
    rw [h] at ha
    cases ha
  | some _ _ ih => exact ih

/-- A program is read to the end of the stream. -/
theorem atEnd_program (room : Nat) (c : Cursor) :
    (program .standard room c).cursor.atEnd = true := by
  obtain ⟨n, -, h⟩ := repeats_many (getsOn_item stops_atEnd room) c
  have hend := stop_cursor_of_repeats h
  rw [program_eq]
  rcases hrun : many (item Cursor.atEnd room) c with ⟨f | body, d, notes⟩ <;> rw [hrun] at hend
  · rwa [bind_apply_of_error hrun]
  · rwa [bind_apply_of_ok hrun]

theorem advance_le_program (room : Nat) {c : Cursor} (hc : c.atEnd = false) :
    c.advance ≤ (program .standard room c).cursor := by
  have hend := atEnd_program room c
  rcases Cursor.eq_or_advance_le (forward_program .standard room c) with h | h
  · rw [h, hc] at hend
    cases hend
  · exact h

/-- A line passes a token unless it is missing. -/
theorem advance_le_line {room : Nat} {c : Cursor} (hc : c.atEnd = false) {e : Expr}
    (h : (line room c).result = .ok (some e)) : c.advance ≤ (line room c).cursor := by
  have hp := productive_expression room .default c hc
  rcases hrun : expression room .default c with ⟨f | a, d, notes⟩
  · rw [line, noting_of_error hrun] at h
    cases h
  · rw [hrun] at hp
    rw [line, noting_of_ok hrun]
    exact hp a rfl

end Parse

open Parse

/-- Whatever is read, a token has been passed; only a line may be missing without that. -/
theorem Production.advance_le_parse {p : Production} {room : Nat} {c : Cursor} {r : Reading}
    (hc : c.atEnd = false) (h : (p.parse .standard room c).result = .ok r) (hr : r ≠ .line none) :
    c.advance ≤ (p.parse .standard room c).cursor := by
  cases p with
  | expression p => exact (productive_expression room p).map _ c hc r h
  | binary p => exact (productive_binary room p).map _ c hc r h
  | assignment => exact (productive_expression room _).map _ c hc r h
  | unary => exact (productive_expression room _).map _ c hc r h
  | primary => exact (productive_expression room _).map _ c hc r h
  | grouping => exact (productive_groupingWith room).map _ c hc r h
  | statement rule => exact (productive_statement _ room rule).map _ c hc r h
  | declaration =>
    rw [parse, map_apply]
    exact advance_le_declaration .standard room hc
  | program =>
    rw [parse, map_apply]
    exact advance_le_program room hc
  | line =>
    rw [parse, map_apply] at h ⊢
    rcases hline : (Parse.line room c).result with f | e <;> rw [hline] at h <;> cases h
    rcases e with _ | e
    · exact absurd rfl hr
    · exact advance_le_line hc hline

namespace Session

variable {t : Session}

theorem read_eq (hrules : t.rules = .standard) (p : Production) :
    (t.read p).2 = (p.parse .standard (maxNesting - t.depth) t.cursor).result ∧
      (t.read p).1.cursor = (p.parse .standard (maxNesting - t.depth) t.cursor).cursor := by
  rw [← hrules]
  exact ⟨rfl, rfl⟩

theorem index_lt_of_read (hrules : t.rules = .standard) (hc : t.cursor.atEnd = false)
    {p : Production} {r : Reading} (h : (t.read p).2 = .ok r) (hr : r ≠ .line none) :
    t.cursor.index < (t.read p).1.cursor.index := by
  obtain ⟨hresult, hcursor⟩ := read_eq hrules p
  rw [hcursor]
  exact Cursor.index_lt_of_advance_le hc (Production.advance_le_parse hc (hresult ▸ h) hr)

theorem exists_read_declaration (hrules : t.rules = .standard) :
    ∃ stmt, (t.read .declaration).2 = .ok (.declaration stmt) := by
  obtain ⟨stmt, d, notes, hrun⟩ := exists_declaration (maxNesting - t.depth) t.cursor
  refine ⟨stmt, ?_⟩
  rw [(read_eq hrules .declaration).1, Production.parse, map_apply, hrun]
  rfl

theorem atEnd_read_program (hrules : t.rules = .standard) :
    t.cursor ≤ (t.read .program).1.cursor ∧ (t.read .program).1.cursor.atEnd = true := by
  rw [(read_eq hrules .program).2, Production.parse, map_apply]
  exact ⟨forward_program _ _ t.cursor, atEnd_program _ t.cursor⟩

end Session

/-! ### Streams -/

namespace TokenStream

/-- Behind all tokens that can be passed stands the first end of input. -/
theorem index_of_atEnd {s : TokenStream} {d : Cursor} (h : s.cursor ≤ d) (hd : d.atEnd = true) :
    d.index = s.firstEnd := by
  rw [← index_add_length_rest h, List.isEmpty_iff.1 hd, List.length_nil, Nat.add_zero]

/-- The repetition in which the whole stream is read. -/
theorem exists_repeats (s : TokenStream) : ∃ n body d, n ≤ s.firstEnd ∧
    Repeats (item Cursor.atEnd maxNesting) n s.cursor ⟨.ok body, d, s.parse.notes⟩ ∧
    s.parse.program = body.reduceOption ∧ d.index = s.firstEnd ∧ d.current.kind = .eof := by
  obtain ⟨n, hn, h⟩ := repeats_many (getsOn_item stops_atEnd maxNesting) s.cursor
  obtain ⟨body, hbody⟩ := (settled_item Cursor.atEnd maxNesting).many s.cursor
  have hend := stop_cursor_of_repeats h
  have hle := (forward_item Cursor.atEnd maxNesting).many s.cursor
  rcases hrun : many (item Cursor.atEnd maxNesting) s.cursor with ⟨result, d, notes⟩
  rw [hrun] at h hbody hend hle
  obtain rfl : result = .ok body := hbody
  obtain ⟨hprogram, rfl⟩ := parse_of_many hrun
  exact ⟨n, body, d, s.length_rest_cursor ▸ hn, h, hprogram, index_of_atEnd hle hend,
    (s.ended_cursor.of_le hle).current_kind_iff.2 hend⟩

/-- The parser comes to an end on every stream.  A session with the standard rules, wherever it is
before the end of input and however many levels are open, gets on: reading a declaration succeeds
and passes a token, whether the declaration is there or missing, and whatever else is read passes a
token, except for a line that is missing.  Reading a program goes up to the first end of input, from
wherever it begins.  The repetitions of the grammar (declarations of a program and of a block, and
operations of an expression), as well as the rounds of the recovery, end by themselves, after at
most as many rounds as there are tokens; so this is how the whole stream is read. -/
theorem parse_ends (s : TokenStream) :
    (∀ t : Session, s.cursor ≤ t.cursor → t.rules = .standard →
      (t.cursor.current.kind ≠ .eof →
        (∃ stmt, (t.read .declaration).2 = .ok (.declaration stmt)) ∧
        t.cursor.index < (t.read .declaration).1.cursor.index ∧
        ∀ p r, (t.read p).2 = .ok r → r ≠ .line none →
          t.cursor.index < (t.read p).1.cursor.index) ∧
      (t.read .program).1.cursor.index = s.firstEnd) ∧
    (∀ room, Ends (item Cursor.atEnd room) ∧ Ends (item blockEnd room) ∧
      ∀ p : Precedence, Ends (operation p.operators (expression room p.next))) ∧
    (Ends approach ∧ ∀ c : Cursor, c.synchronize = (many approach c.advance).cursor) ∧
    ∃ n body d, n ≤ s.firstEnd ∧
      Repeats (item Cursor.atEnd maxNesting) n s.cursor ⟨.ok body, d, s.parse.notes⟩ ∧
      s.parse.program = body.reduceOption ∧ d.index = s.firstEnd ∧ d.current.kind = .eof := by
  refine ⟨fun t ht hrules => ⟨fun hk => ?_, ?_⟩, fun room => ⟨?_, ?_, fun p => ?_⟩, ⟨?_, ?_⟩, ?_⟩
  · have hc : t.cursor.atEnd = false := by
      rw [← Bool.not_eq_true, ← (s.ended_cursor.of_le ht).current_kind_iff]
      exact hk
    obtain ⟨stmt, hstmt⟩ := Session.exists_read_declaration hrules
    exact ⟨⟨stmt, hstmt⟩, Session.index_lt_of_read hrules hc hstmt (by simp),
      fun p r => Session.index_lt_of_read hrules hc⟩
  · obtain ⟨hle, hend⟩ := Session.atEnd_read_program hrules
    exact index_of_atEnd (Cursor.le_trans ht hle) hend
  · exact (getsOn_item stops_atEnd room).ends
  · exact (getsOn_item stops_blockEnd room).ends
  · exact (getsOn_operation _ (forward_expression room _)).ends
  · exact getsOn_approach.ends
  · exact synchronize_eq_many
  · exact exists_repeats s

end TokenStream

end Lox

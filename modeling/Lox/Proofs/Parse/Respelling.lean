import Mathlib.Data.List.Forall2
import Lox.Proofs.Cursor.Respelling
import Lox.Proofs.Parse.Accounts
import Lox.Proofs.Tree.Written
import Lox.Source

/-!
# Parsing respelled tokens

The parser decides by the kinds and the values of tokens alone.  On respelled tokens every
production does what it does on the tokens themselves: it ends with the respelled value or fault, at
the respelled cursor, and notes the respelled faults and the same recoveries
(`Parse.carries_program`).  The key fact: a respelled stream is parsed to the respelled program, with
the same errors in the same order (`TokenStream.parse_respell`).
-/

namespace Lox

variable (f : Respelling)

namespace Fault

def respell (g : Fault) : Fault :=
  ⟨g.cause, g.site.respell f⟩

end Fault

/-! ### Notes -/

/-- The same was noted at the respelled tokens.  Only the line of a recovery may differ. -/
inductive Note.Respelled : Note → Note → Prop
  | fault (g : Fault) : Respelled (.fault g) (.fault (g.respell f))
  | synchronized (start stop : Nat) (line line' : UInt32) :
      Respelled (.synchronized start stop line) (.synchronized start stop line')

namespace Note

variable {f} {notes notes' : List Note}

theorem faults_of_respelled (h : List.Forall₂ (Respelled f) notes notes') :
    faults notes' = (faults notes).map (Fault.respell f) := by
  induction h with
  | nil => rfl
  | cons h _ ih =>
    cases h with
    | fault g => exact congrArg (g.respell f :: ·) ih
    | synchronized => exact ih

theorem spans_of_respelled (h : List.Forall₂ (Respelled f) notes notes') :
    List.Forall₂ (fun r r' => r'.start = r.start ∧ r'.stop = r.stop) (recoveries notes)
      (recoveries notes') := by
  induction h with
  | nil => exact .nil
  | cons h _ ih =>
    cases h with
    | fault => exact ih
    | synchronized => exact .cons ⟨rfl, rfl⟩ ih

end Note

/-! ### Outcomes -/

/-- Both runs end with a value, the second one with that given by `φ`, or both with a fault. -/
inductive Outcome.Respelled {α β : Type} (φ : α → β) : Outcome α → Outcome β → Prop
  | ok {a : α} {c : Cursor} {notes notes' : List Note}
      (hn : List.Forall₂ (Note.Respelled f) notes notes') :
      Respelled φ ⟨.ok a, c, notes⟩ ⟨.ok (φ a), c.respell f, notes'⟩
  | error {g : Fault} {c : Cursor} {notes notes' : List Note}
      (hn : List.Forall₂ (Note.Respelled f) notes notes') :
      Respelled φ ⟨.error g, c, notes⟩ ⟨.error (g.respell f), c.respell f, notes'⟩

namespace Outcome.Respelled

variable {f} {α β γ δ : Type} {φ : α → β} {o : Outcome α} {o' : Outcome β}
  {notes notes' : List Note}

/-- What was noted before comes in front. -/
theorem behind (h : Respelled f φ o o') (hn : List.Forall₂ (Note.Respelled f) notes notes') :
    Respelled f φ ⟨o.result, o.cursor, notes ++ o.notes⟩
      ⟨o'.result, o'.cursor, notes' ++ o'.notes⟩ := by
  cases h with
  | ok h => exact .ok (List.rel_append hn h)
  | error h => exact .error (List.rel_append hn h)

theorem map {ψ : γ → δ} (h : Respelled f φ o o') (g : α → γ) (k : β → δ)
    (hgk : ∀ a, k (φ a) = ψ (g a)) :
    Respelled f ψ ⟨o.result.map g, o.cursor, o.notes⟩ ⟨o'.result.map k, o'.cursor, o'.notes⟩ := by
  cases h with
  | @ok a _ _ _ h =>
    show Respelled f ψ _ ⟨.ok (k (φ a)), _, _⟩
    rw [hgk]
    exact .ok h
  | error h => exact .error h

end Outcome.Respelled

namespace Parse

variable {α β γ δ : Type} {φ : α → β} {ψ : γ → δ}

/-- On respelled tokens `q` does what `p` does on the tokens themselves. -/
def Carries (φ : α → β) (p : Parse α) (q : Parse β) : Prop :=
  ∀ c : Cursor, (p c).Respelled f φ (q (c.respell f))

variable {f}

theorem carries_pure (φ : α → β) (a : α) : Carries f φ (pure a) (pure (φ a)) :=
  fun _ => .ok .nil

theorem Carries.bind {p : Parse α} {q : Parse β} {g : α → Parse γ} {h : β → Parse δ}
    (hpq : Carries f φ p q) (hgh : ∀ a, Carries f ψ (g a) (h (φ a))) :
    Carries f ψ (p >>= g) (q >>= h) := by
  intro c
  have hrun := hpq c
  generalize hp : p c = o, hq : q (c.respell f) = o' at hrun
  cases hrun with
  | @ok a d _ _ hn =>
    rw [bind_apply_of_ok hp, bind_apply_of_ok hq]
    exact (hgh a d).behind hn
  | error hn =>
    rw [bind_apply_of_error hp, bind_apply_of_error hq]
    exact .error hn

theorem Carries.bind_pure {p : Parse α} {q : Parse β} {g : α → γ} {h : β → δ}
    (hpq : Carries f φ p q) (hgh : ∀ a, h (φ a) = ψ (g a)) :
    Carries f ψ (p >>= fun a => pure (g a)) (q >>= fun b => pure (h b)) :=
  hpq.bind fun a => by
    rw [hgh]
    exact carries_pure ψ (g a)

/-! ### Single tokens -/

theorem carries_here : Carries f f here here := by
  intro c
  unfold here
  rw [Cursor.current_respell]
  exact .ok .nil

theorem carries_skip : Carries f id skip skip := by
  intro c
  unfold skip
  rw [Cursor.advance_respell]
  exact .ok .nil

theorem carries_isAt (kinds : List TokenKind) : Carries f id (isAt kinds) (isAt kinds) := by
  intro c
  unfold isAt
  rw [Cursor.isAt_respell]
  exact .ok .nil

theorem carries_atEnd : Carries f id atEnd atEnd := by
  intro c
  unfold atEnd
  rw [Cursor.atEnd_respell]
  exact .ok .nil

theorem carries_accept (kinds : List TokenKind) :
    Carries f (Option.map (Site.respell f)) (accept kinds) (accept kinds) := by
  intro c
  unfold accept
  rw [Cursor.isAt_respell, Cursor.site_respell, Cursor.advance_respell]
  split <;> exact .ok .nil

theorem carries_refuse (φ : α → β) (cause : Cause) :
    Carries f φ (refuse cause) (refuse cause) := by
  intro c
  unfold refuse
  rw [Cursor.site_respell]
  exact .error .nil

theorem carries_accept_bind {g : Option Site → Parse α} {h : Option Site → Parse β}
    (kinds : List TokenKind) (hnone : Carries f φ (g none) (h none))
    (hsome : ∀ s : Site, Carries f φ (g (some s)) (h (some (s.respell f)))) :
    Carries f φ (accept kinds >>= g) (accept kinds >>= h) :=
  (carries_accept kinds).bind fun
    | none => hnone
    | some s => hsome s

theorem carries_expect (kind : TokenKind) (message : String) :
    Carries f f (expect kind message) (expect kind message) :=
  carries_accept_bind _ (carries_refuse f _) fun s => carries_pure f s.token

theorem carries_keeping (φ : α → β) (a : α) (s : Site) :
    Carries f φ (keeping a s) (keeping (φ a) (s.respell f)) :=
  fun _ => .ok (.cons (.fault ⟨.invalidAssignmentTarget, s⟩) .nil)

/-! ### Combinations -/

theorem Carries.many {p : Parse (Option α)} {q : Parse (Option β)}
    (hpq : Carries f (Option.map φ) p q) : Carries f (List.map φ) (many p) (many q) := by
  intro c
  have hrun := hpq c
  generalize hq : q (c.respell f) = o' at hrun
  fun_induction Parse.many p c generalizing o' with
  | case1 c a d notes hp hlt o ih =>
    rw [hp] at hrun
    cases hrun with
    | ok hn =>
      have hlt' : (d.respell f).rest.length < (c.respell f).rest.length := by simpa using hlt
      rw [many_of_some hq hlt']
      have hrest : o.Respelled f (List.map φ) (Parse.many q (d.respell f)) :=
        ih _ rfl (hpq d)
      exact (hrest.map (a :: ·) (φ a :: ·) fun _ => rfl).behind hn
  | case2 c a d notes hp hlt =>
    rw [hp] at hrun
    cases hrun with
    | ok hn =>
      rw [many_of_stuck hq (by simpa using hlt)]
      exact .ok hn
  | case3 c d notes hp =>
    rw [hp] at hrun
    cases hrun with
    | ok hn =>
      rw [many_of_none hq]
      exact .ok hn
  | case4 c g d notes hp =>
    rw [hp] at hrun
    cases hrun with
    | error hn =>
      rw [many_of_error hq]
      exact .error hn

/-- The recovery is noted with the line of the respelled token. -/
theorem Carries.recovering {φ : Stmt → Stmt} {p q : Parse Stmt} (hpq : Carries f φ p q) :
    Carries f (Option.map φ) (recovering p) (recovering q) := by
  intro c
  have hrun := hpq c
  generalize hp : p c = o, hq : q (c.respell f) = o' at hrun
  cases hrun with
  | ok hn =>
    rw [recovering_of_ok hp, recovering_of_ok hq]
    exact .ok hn
  | @error g d _ _ hn =>
    rw [recovering_of_error hp, recovering_of_error hq, Cursor.synchronize_respell]
    refine .ok (List.rel_append hn (.cons (.fault g) (.cons ?_ .nil)))
    rw [Cursor.index_respell, Cursor.index_respell]
    exact .synchronized ..

/-! ### Expressions -/

theorem Carries.operation {operand : Parse Expr}
    (h : Carries f (Expr.mapTokens f) operand operand) (operators : List TokenKind) :
    Carries f (Option.map (Prod.map f (Expr.mapTokens f))) (operation operators operand)
      (operation operators operand) :=
  carries_accept_bind _ (carries_pure _ none) fun _ => h.bind_pure fun _ => rfl

theorem mapTokens_foldl_joinLeft (f : Token → Token) (e : Expr) (more : List (Token × Expr)) :
    (more.foldl joinLeft e).mapTokens f =
      (more.map (Prod.map f (Expr.mapTokens f))).foldl joinLeft (e.mapTokens f) := by
  induction more generalizing e with
  | nil => rfl
  | cons op more ih => exact ih (joinLeft e op)

theorem Carries.leftAssoc {operand : Parse Expr}
    (h : Carries f (Expr.mapTokens f) operand operand) (operators : List TokenKind) :
    Carries f (Expr.mapTokens f) (leftAssoc operators operand) (leftAssoc operators operand) := by
  rw [leftAssoc_eq]
  exact h.bind fun e => (h.operation operators).many.bind_pure fun more =>
    (mapTokens_foldl_joinLeft f e more).symm

theorem carries_assigning (target : Expr) (s : Site) (value : Expr) :
    Carries f (Expr.mapTokens f) (assigning target s value)
      (assigning (target.mapTokens f) (s.respell f) (value.mapTokens f)) := by
  cases target with
  | var name => exact carries_pure (Expr.mapTokens f) (.assign name value)
  | _ => exact carries_keeping (Expr.mapTokens f) _ s

/-- The expression is read alike. -/
private def CarriesExpr (f : Respelling) (p : Parse Expr) : Prop :=
  Carries f (Expr.mapTokens f) p p

section Level

variable {room : Nat} (hdeeper : ∀ inner ∈ deeper room, ∀ p : Precedence, CarriesExpr f (inner p))

include hdeeper

private theorem carries_nested {q : (Precedence → Parse Expr) → Parse Expr}
    (hq : ∀ inner, (∀ p : Precedence, CarriesExpr f (inner p)) → CarriesExpr f (q inner)) :
    CarriesExpr f (nested (deeper room) q) := by
  cases room with
  | zero => exact carries_refuse _ _
  | succ room => exact hq _ (hdeeper _ rfl)

private theorem carries_primaryAt (t : Token) :
    Carries f (Expr.mapTokens f) (primaryAt (deeper room) t) (primaryAt (deeper room) (f t)) := by
  have leaf (e : Expr) : Carries f (Expr.mapTokens f) (skip >>= fun _ => pure e)
      (skip >>= fun _ => pure (e.mapTokens f)) := carries_skip.bind_pure fun _ => rfl
  -- the respelled token has the same value and kind, so it is read by the same case
  unfold primaryAt
  rw [f.literal_apply, f.kind_apply]
  split
  · exact leaf (.literal _)
  · exact leaf (.literal (.bool false))
  · exact leaf (.literal (.bool true))
  · exact leaf (.literal .nil)
  · exact leaf (.var t)
  · exact carries_nested hdeeper fun inner hi => carries_skip.bind fun _ => (hi _).bind fun _ =>
      (carries_expect _ _).bind_pure fun _ => rfl
  · exact carries_refuse _ _

private theorem carries_primary : CarriesExpr f (expression room .primary) := by
  rw [expression_primary]
  exact carries_here.bind (carries_primaryAt hdeeper)

private theorem carries_unary : CarriesExpr f (expression room .unary) := by
  rw [expression_unary]
  refine carries_accept_bind _ (carries_primary hdeeper) fun s => ?_
  exact (carries_nested hdeeper fun inner hi => hi _).bind_pure fun _ => rfl

private theorem carries_assignment (h : CarriesExpr f (expression room .equality)) :
    CarriesExpr f (expression room .assignment) := by
  rw [expression_assignment]
  refine Carries.bind h fun target => carries_accept_bind _ (carries_pure _ target) fun s => ?_
  exact (carries_nested hdeeper fun inner hi => hi _).bind (carries_assigning target s)

private theorem carries_level (p : Precedence) : CarriesExpr f (expression room p) := by
  have operators {p : Precedence} (hp : p.operators ≠ [])
      (h : CarriesExpr f (expression room p.next)) : CarriesExpr f (expression room p) := by
    rw [expression_of_operators room hp]
    exact h.leftAssoc p.operators
  have unary := carries_unary hdeeper
  have factor := operators (p := .factor) (by decide) unary
  have term := operators (p := .term) (by decide) factor
  have comparison := operators (p := .comparison) (by decide) term
  have equality := operators (p := .equality) (by decide) comparison
  have assignment := carries_assignment hdeeper equality
  cases p with
  | default => rwa [expression_default]
  | assignment => exact assignment
  | equality => exact equality
  | comparison => exact comparison
  | term => exact term
  | factor => exact factor
  | unary => exact unary
  | primary => exact carries_primary hdeeper

end Level

theorem carries_expression (f : Respelling) (room : Nat) (p : Precedence) :
    Carries f (Expr.mapTokens f) (expression room p) (expression room p) := by
  induction room generalizing p with
  | zero => exact carries_level (by simp [deeper]) p
  | succ room ih =>
    refine carries_level ?_ p
    rintro _ ⟨⟩ q
    exact ih q

/-! ### Statements -/

/-- The statement is read alike. -/
private def CarriesStmt (f : Respelling) (p : Parse Stmt) : Prop :=
  Carries f (Stmt.mapTokens f) p p

theorem carries_initializer (room : Nat) :
    Carries f (Option.map (Expr.mapTokens f)) (initializerWith (expression room .assignment))
      (initializerWith (expression room .assignment)) :=
  carries_accept_bind _ (carries_pure _ none) fun _ =>
    (carries_expression f room .assignment).bind_pure fun _ => rfl

/-- An expression with the semicolon that closes its statement. -/
private theorem carries_terminated (room : Nat) (message : String) (g : Expr → Stmt)
    (hg : ∀ e, g (e.mapTokens f) = (g e).mapTokens f) :
    CarriesStmt f (expression room .assignment >>= fun e =>
      expect .semicolon message >>= fun _ => pure (g e)) :=
  (carries_expression f room .assignment).bind fun e =>
    (carries_expect _ _).bind_pure fun _ => hg e

private theorem carries_declaration_of_leading {room : Nat}
    (h : ∀ k, CarriesStmt f (leading room k)) :
    Carries f (Option.map (Stmt.mapTokens f)) (declaration .standard room)
      (declaration .standard room) := by
  rw [declaration_eq_recovering]
  refine carries_here.bind fun t => ?_
  rw [f.kind_apply]
  exact (h t.kind).recovering

private theorem carries_item_of_declaration {room : Nat} {stop : Cursor → Bool}
    (hs : stop = blockEnd ∨ stop = Cursor.atEnd)
    (hd : Carries f (Option.map (Stmt.mapTokens f)) (declaration .standard room)
      (declaration .standard room)) :
    Carries f (Option.map (Option.map (Stmt.mapTokens f))) (item stop room) (item stop room) := by
  let next (b : Bool) : Parse (Option (Option Stmt)) :=
    if b then pure none else declaration .standard room >>= fun s => pure (some s)
  have key (b : Bool) : Carries f (Option.map (Option.map (Stmt.mapTokens f))) (next b) (next b) := by
    cases b with
    | true => exact carries_pure _ none
    | false => exact hd.bind_pure fun _ => rfl
  rcases hs with rfl | rfl
  · rw [item_blockEnd]
    exact (carries_isAt _).bind fun a => carries_atEnd.bind fun b => key (a || b)
  · rw [item_atEnd]
    exact carries_atEnd.bind key

private theorem carries_leading_level {room : Nat} (hblock : CarriesStmt f (leading room .openCurly))
    (k : TokenKind) : CarriesStmt f (leading room k) := by
  by_cases hk : k ∈ Tolerant.statementKinds
  · simp only [Tolerant.statementKinds, List.mem_cons, List.not_mem_nil, or_false] at hk
    rcases hk with rfl | rfl | rfl
    · rw [leading_kwVar]
      exact carries_skip.bind fun _ => (carries_expect _ _).bind fun _ =>
        (carries_initializer room).bind fun _ => (carries_expect _ _).bind_pure fun _ => rfl
    · rw [leading_kwPrint]
      exact carries_skip.bind fun _ => carries_terminated room _ .print fun _ => rfl
    · exact hblock
  · rw [leading_of_not_mem room hk]
    exact carries_terminated room _ .expression fun _ => rfl

theorem mapTokens_block (f : Token → Token) (body : List (Option Stmt)) :
    Stmt.block (body.map (Option.map (Stmt.mapTokens f))).reduceOption =
      (Stmt.block body.reduceOption).mapTokens f := by
  rw [Stmt.mapTokens, Stmt.mapAllTokens_eq_map, List.reduceOption_map]

theorem carries_leading (f : Respelling) (room : Nat) (k : TokenKind) :
    Carries f (Stmt.mapTokens f) (leading room k) (leading room k) := by
  induction room generalizing k with
  | zero =>
    have block : CarriesStmt f (leading 0 .openCurly) := carries_refuse _ .tooDeeplyNested
    exact carries_leading_level block k
  | succ room ih =>
    refine carries_leading_level ?_ k
    have items := carries_item_of_declaration (.inl rfl) (carries_declaration_of_leading ih)
    rw [leading_openCurly]
    exact carries_skip.bind fun _ => items.many.bind fun body =>
      (carries_expect _ _).bind_pure fun _ => mapTokens_block f body

theorem carries_program (f : Respelling) (room : Nat) :
    Carries f (List.map (Stmt.mapTokens f)) (program .standard room) (program .standard room) := by
  have items := carries_item_of_declaration (.inr rfl)
    (carries_declaration_of_leading (carries_leading f room))
  rw [program_eq]
  exact items.many.bind_pure fun _ => List.reduceOption_map

end Parse

/-! ### Outlines -/

/-- An outline shows the lexemes of tokens alone. -/
theorem Expr.outline_mapTokens {f : Token → Token} (hf : ∀ t, (f t).lexeme = t.lexeme) (e : Expr) :
    (e.mapTokens f).outline = e.outline := by
  induction e with
  | literal value => rfl
  | grouping inner ih => rw [mapTokens, outline, outline, ih]
  | unary operator operand ih => rw [mapTokens, outline, outline, hf, ih]
  | binary left operator right ihl ihr => rw [mapTokens, outline, outline, hf, ihl, ihr]
  | var name => exact hf name
  | assign name value ih => rw [mapTokens, outline, outline, hf, ih]

namespace Stmt

mutual

theorem outline_mapTokens {f : Token → Token} (hf : ∀ t, (f t).lexeme = t.lexeme) :
    ∀ s : Stmt, (s.mapTokens f).outline = s.outline
  | expression e => by rw [mapTokens, outline, outline, e.outline_mapTokens hf]
  | print e => by rw [mapTokens, outline, outline, e.outline_mapTokens hf]
  | varDecl name none => by rw [mapTokens, Option.map_none, outline, outline, hf]
  | varDecl name (some e) => by
    rw [mapTokens, Option.map_some, outline, outline, hf, e.outline_mapTokens hf]
  | block body => by rw [mapTokens, outline, outline, outlines_mapAllTokens hf body]

theorem outlines_mapAllTokens {f : Token → Token} (hf : ∀ t, (f t).lexeme = t.lexeme) :
    ∀ ss : List Stmt, outlines (mapAllTokens f ss) = outlines ss
  | [] => rfl
  | s :: ss => by
    rw [mapAllTokens, outlines, outlines, s.outline_mapTokens hf, outlines_mapAllTokens hf ss]

end

end Stmt

/-! ### Streams -/

/-- Both recoveries go from the same token to the same token, and the line of the second one is that
of the respelled token. -/
structure Recovery.Respelled (ts : List Token) (r r' : Recovery) : Prop where
  start : r'.start = r.start
  stop : r'.stop = r.stop
  line : ∃ t, ts[r.stop]? = some t ∧ r.line = t.line ∧ r'.line = (f t).line

/-- The tokens `ts` were parsed to `p`, and respelled to `p'`. -/
structure Parsing.Respelled (ts : List Token) (p p' : Parsing) : Prop where
  program : p'.program = p.program.map (Stmt.mapTokens f)
  located : ∀ g ∈ p.faults, ts[g.site.index]? = some g.site.token
  diagnostics : p.diagnostics = p.faults.map fun g => .atToken g.cause g.site.token
  /-- Every error is placed at the respelled token. -/
  respelled : p'.diagnostics = p.faults.map fun g => .atToken g.cause (f g.site.token)
  logged : ∀ q ∈ [p, p'], q.log.filter LogLine.tellsRecovery = q.recoveries.map Recovery.logLine
  recoveries : List.Forall₂ (Recovery.Respelled f ts) p.recoveries p'.recoveries

/-- The token without its place. -/
def Respelling.unplaced : Respelling where
  apply := Token.unplaced
  kind_apply _ := rfl
  literal_apply _ := rfl

namespace TokenStream

variable (s : TokenStream)

/-- A recovery is logged with the line of the token where reading goes on. -/
theorem line_of_mem_recoveries {r : Recovery} (hr : r ∈ s.parse.recoveries) :
    ∃ t, s.toList[r.stop]? = some t ∧ r.line = t.line := by
  obtain ⟨d, hchronicle⟩ := s.chronicle_parse
  obtain ⟨b, hb, -, rfl⟩ := hchronicle.between hr
  exact ⟨_, getElem?_toList_of_le (Cursor.le_trans hb b.le_synchronize), rfl⟩

theorem program_and_notes_respell :
    (s.respell f).parse.program = s.parse.program.map (Stmt.mapTokens f) ∧
      List.Forall₂ (Note.Respelled f) s.parse.notes (s.respell f).parse.notes := by
  obtain ⟨d, hrun⟩ := s.exists_run
  obtain ⟨d', hrun'⟩ := (s.respell f).exists_run
  have key := Parse.carries_program f Parse.maxNesting s.cursor
  rw [← cursor_respell, hrun, hrun'] at key
  generalize (s.respell f).parse.program = program, (s.respell f).parse.notes = notes at key ⊢
  cases key with
  | ok hn => exact ⟨rfl, hn⟩

theorem recoveries_respell :
    List.Forall₂ (Recovery.Respelled f s.toList) s.parse.recoveries
      (s.respell f).parse.recoveries := by
  have hspans := Note.spans_of_respelled (s.program_and_notes_respell f).2
  have hleft := (List.forall₂_and_left _ _).2 ⟨fun r => s.line_of_mem_recoveries, hspans⟩
  have hright := (List.forall₂_and_left _ _).2
    ⟨fun r => (s.respell f).line_of_mem_recoveries, hleft.flip⟩
  refine hright.flip.imp fun r r' h => ?_
  obtain ⟨⟨t', ht', hline'⟩, ⟨t, ht, hline⟩, hstart, hstop⟩ := h
  rw [toList_respell, List.getElem?_map, hstop, ht] at ht'
  cases ht'
  exact ⟨hstart, hstop, t, ht, hline, hline'⟩

theorem respelled_parse : s.parse.Respelled f s.toList (s.respell f).parse := by
  obtain ⟨hprogram, hnotes⟩ := s.program_and_notes_respell f
  refine ⟨hprogram, fun g hg => (s.faults_parse hg).2, rfl, ?_, ?_, s.recoveries_respell f⟩
  · show (Note.faults (s.respell f).parse.notes).map Fault.diagnostic = _
    rw [Note.faults_of_respelled hnotes, List.map_map]
    rfl
  · exact fun q _ => q.filter_tellsRecovery_log

theorem outlineProgram_parse_respell (hf : ∀ t, (f t).lexeme = t.lexeme) :
    outlineProgram (s.respell f).parse.program = outlineProgram s.parse.program := by
  rw [(s.respelled_parse f).program, ← Stmt.mapAllTokens_eq_map]
  exact congrArg ("\n".intercalate ·) (Stmt.outlines_mapAllTokens hf _)

/-- Lexemes and places do not steer the parser.  Respelled tokens are parsed to the respelled
program, with the same errors in the same order, each at the respelled token, and with the same
recoveries.  So the programs of two sources with the same tokens have the same outline, wherever the
tokens stand. -/
theorem parse_respell :
    (∀ (f : Respelling) (s : TokenStream), s.parse.Respelled f s.toList (s.respell f).parse) ∧
      ∀ (r r' : Report) (a b : String),
        (scan a).tokens.toList.map Token.unplaced = (scan b).tokens.toList.map Token.unplaced →
          outlineProgram (r.readProgram a).1 = outlineProgram (r'.readProgram b).1 := by
  refine ⟨fun f s => s.respelled_parse f, fun r r' a b h => ?_⟩
  have hrespell : (scan a).tokens.respell .unplaced = (scan b).tokens.respell .unplaced := by
    apply toList_injective
    rw [toList_respell, toList_respell]
    exact h
  have ha := (scan a).tokens.outlineProgram_parse_respell .unplaced fun _ => rfl
  have hb := (scan b).tokens.outlineProgram_parse_respell .unplaced fun _ => rfl
  exact ha.symm.trans ((congrArg (outlineProgram ·.parse.program) hrespell).trans hb)

/-- A statement on one line and spread over several lines. -/
theorem parse_respell_layout :
    let a := "print x=1+2;"
    let b := "print x =\n  1 + // one\n  2 ;"
    (scan a).tokens.toList.map Token.unplaced = (scan b).tokens.toList.map Token.unplaced ∧
      outlineProgram (Report.empty.readProgram a).1 =
        outlineProgram (Report.empty.readProgram b).1 := by
  intro a b
  have h : (scan a).tokens.toList.map Token.unplaced =
      (scan b).tokens.toList.map Token.unplaced := by decide +kernel
  exact ⟨h, parse_respell.2 _ _ a b h⟩

end TokenStream

end Lox

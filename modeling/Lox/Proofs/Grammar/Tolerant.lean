import Lox.Proofs.Grammar

/-!
# The tolerant grammar

The language that is read without a fault that ends a statement.  It differs from the grammar in one
rule: an equals sign may also stand behind an operand that is no variable.  It is then misplaced,
and what stands to the right of it is no part of the tree.  A derivation lists the misplaced equals
signs.

The rules here also say of arbitrary tokens which of them apply, so that no two apply to the same
tokens: whatever carries a value is a literal, unless it is a prefix operator by its kind.  The key
facts: on regular tokens the derivations without misplaced equals signs are those of the grammar
(`Derives.strict`, `Grammar.Derives.tolerant`), and more levels do no harm (`Derives.mono`).
-/

namespace Lox

namespace Tolerant

/-- The kinds that start an operand with a prefix operator. -/
def prefixOperators : List TokenKind :=
  [.not, .dash]

/-- The kinds that start a statement other than an expression statement. -/
def statementKinds : List TokenKind :=
  [.kwVar, .kwPrint, .openCurly]

/-- The first token is of none of the kinds. -/
def HeadNotIn (kinds : List TokenKind) (ts : List Token) : Prop :=
  ∀ t ∈ ts.head?, t.kind ∉ kinds

@[simp] theorem headNotIn_cons {kinds : List TokenKind} {t : Token} {ts : List Token} :
    HeadNotIn kinds (t :: ts) ↔ t.kind ∉ kinds := by
  simp [HeadNotIn]

theorem HeadNotIn.append {kinds : List TokenKind} {ts : List Token} (h : HeadNotIn kinds ts)
    (hne : ts ≠ []) (us : List Token) : HeadNotIn kinds (ts ++ us) := by
  cases ts with
  | nil => exact absurd rfl hne
  | cons t ts => simpa using h

theorem HeadNotIn.of_append {kinds : List TokenKind} {ts us : List Token}
    (h : HeadNotIn kinds (ts ++ us)) : HeadNotIn kinds ts := by
  cases ts with
  | nil => simp [HeadNotIn]
  | cons t ts => simpa using h

theorem HeadNotIn.of_subset {kinds kinds' : List TokenKind} {ts : List Token}
    (h : HeadNotIn kinds' ts) (hs : kinds ⊆ kinds') : HeadNotIn kinds ts :=
  fun t ht hk => h t ht (hs hk)

inductive Derives : (room : Nat) → Precedence → List Token → Expr → (bad : List Token) → Prop
  | literal {room t v} (h : t.literal = some v) : Derives room .primary [t] (.literal v) []
  | false {room t} (h : t.kind = .kwFalse) (hl : t.literal = none) :
      Derives room .primary [t] (.literal (.bool false)) []
  | true {room t} (h : t.kind = .kwTrue) (hl : t.literal = none) :
      Derives room .primary [t] (.literal (.bool true)) []
  | nil {room t} (h : t.kind = .kwNil) (hl : t.literal = none) :
      Derives room .primary [t] (.literal .nil) []
  | var {room t} (h : t.kind = .identifier) (hl : t.literal = none) :
      Derives room .primary [t] (.var t) []
  | grouping {room o ts e bad c} (ho : o.kind = .openParen) (hl : o.literal = none)
      (h : Derives room .assignment ts e bad) (hc : c.kind = .closeParen) :
      Derives (room + 1) .primary (o :: ts ++ [c]) (.grouping e) bad
  | operand {room ts e bad} (h : Derives room .primary ts e bad)
      (hn : HeadNotIn prefixOperators ts) : Derives room .unary ts e bad
  | unary {room o ts e bad} (ho : o.kind ∈ prefixOperators) (h : Derives room .unary ts e bad) :
      Derives (room + 1) .unary (o :: ts) (.unary o e) bad
  | binary {room p ts l bad o us r bad'} (hl : Derives room p ts l bad)
      (ho : o.kind ∈ p.operators) (hr : Derives room p.next us r bad') :
      Derives room p (ts ++ o :: us) (.binary l o r) (bad ++ bad')
  | assign {room ts n bad q us v bad'} (ht : Derives (room + 1) .equality ts (.var n) bad)
      (hq : q.kind = .assignment) (hv : Derives room .assignment us v bad') :
      Derives (room + 1) .assignment (ts ++ q :: us) (.assign n v) (bad ++ bad')
  | misplaced {room ts e bad q us v bad'} (ht : Derives (room + 1) .equality ts e bad)
      (he : ∀ n, e ≠ .var n) (hq : q.kind = .assignment)
      (hv : Derives room .assignment us v bad') :
      Derives (room + 1) .assignment (ts ++ q :: us) e (bad ++ bad' ++ [q])
  | next {room p ts e bad} (hp : p ∉ [Precedence.unary, .primary])
      (h : Derives room p.next ts e bad) : Derives room p ts e bad

mutual

inductive Declaration : (room : Nat) → List Token → Stmt → (bad : List Token) → Prop
  | var {room k n s} (hk : k.kind = .kwVar) (hn : n.kind = .identifier)
      (hs : s.kind = .semicolon) : Declaration room [k, n, s] (.varDecl n none) []
  | init {room k n q ts e bad s} (hk : k.kind = .kwVar) (hn : n.kind = .identifier)
      (hq : q.kind = .assignment) (h : Derives room .assignment ts e bad)
      (hs : s.kind = .semicolon) :
      Declaration room (k :: n :: q :: ts ++ [s]) (.varDecl n (some e)) bad
  | print {room k ts e bad s} (hk : k.kind = .kwPrint) (h : Derives room .assignment ts e bad)
      (hs : s.kind = .semicolon) : Declaration room (k :: ts ++ [s]) (.print e) bad
  | block {room o ts body bad c} (ho : o.kind = .openCurly)
      (h : Program [.closeCurly] room ts body bad) (hc : c.kind = .closeCurly) :
      Declaration (room + 1) (o :: ts ++ [c]) (.block body) bad
  | expression {room ts e bad s} (h : Derives room .assignment ts e bad)
      (hn : HeadNotIn statementKinds ts) (hs : s.kind = .semicolon) :
      Declaration room (ts ++ [s]) (.expression e) bad

/-- Declarations in a row, none of which starts with a token of the kinds `stop`. -/
inductive Program : (stop : List TokenKind) → (room : Nat) → List Token → List Stmt →
    (bad : List Token) → Prop
  | nil {stop room} : Program stop room [] [] []
  | cons {stop room ts s bad us body bad'} (h : Declaration room ts s bad)
      (hn : HeadNotIn stop ts) (hs : Program stop room us body bad') :
      Program stop room (ts ++ us) (s :: body) (bad ++ bad')

end

/-! ### Rows of items -/

/-- The tokens of items that stand in a row, with the misplaced equals signs. -/
inductive Row {α : Type} (item : List Token → α → (bad : List Token) → Prop) :
    List Token → List α → (bad : List Token) → Prop
  | nil : Row item [] [] []
  | cons {ts a bad us as bad'} (h : item ts a bad) (hs : Row item us as bad') :
      Row item (ts ++ us) (a :: as) (bad ++ bad')

/-- A declaration as an item of a program. -/
def Item (stop : List TokenKind) (room : Nat) (ts : List Token) (s : Stmt) (bad : List Token) :
    Prop :=
  Declaration room ts s bad ∧ HeadNotIn stop ts

theorem Program.row {stop : List TokenKind} {room : Nat} {ts : List Token} {body : List Stmt}
    {bad : List Token} : Program stop room ts body bad → Row (Item stop room) ts body bad
  | .nil => .nil
  | .cons h hn hs => .cons ⟨h, hn⟩ hs.row

theorem Row.program {stop : List TokenKind} {room : Nat} {ts : List Token} {body : List Stmt}
    {bad : List Token} (h : Row (Item stop room) ts body bad) : Program stop room ts body bad := by
  induction h with
  | nil => exact .nil
  | cons h _ ih => exact .cons h.1 h.2 ih

theorem Row.append {α : Type} {item : List Token → α → List Token → Prop} {ts us : List Token}
    {as as' : List α} {bad bad' : List Token} (h : Row item ts as bad) (h' : Row item us as' bad') :
    Row item (ts ++ us) (as ++ as') (bad ++ bad') := by
  induction h with
  | nil => exact h'
  | cons ha _ ih =>
    have key := Row.cons ha ih
    rwa [← List.append_assoc, ← List.append_assoc] at key

theorem Program.append {stop : List TokenKind} {room : Nat} {ts us : List Token}
    {body body' : List Stmt} {bad bad' : List Token} (h : Program stop room ts body bad)
    (h' : Program stop room us body' bad') :
    Program stop room (ts ++ us) (body ++ body') (bad ++ bad') :=
  (h.row.append h'.row).program

theorem Declaration.program {stop : List TokenKind} {room : Nat} {ts : List Token} {stmt : Stmt}
    {bad : List Token} (h : Declaration room ts stmt bad) (hn : HeadNotIn stop ts) :
    Program stop room ts [stmt] bad := by
  have key := Program.cons h hn .nil
  rwa [List.append_nil, List.append_nil] at key

/-- The item is there. -/
def Present {α : Type} (item : List Token → α → List Token → Prop) (ts : List Token)
    (o : Option α) (bad : List Token) : Prop :=
  ∃ a, o = some a ∧ item ts a bad

theorem row_present_iff {α : Type} {item : List Token → α → List Token → Prop} {ts : List Token}
    {os : List (Option α)} {bad : List Token} :
    Row (Present item) ts os bad ↔ ∃ as, os = as.map some ∧ Row item ts as bad := by
  constructor
  · intro h
    induction h with
    | nil => exact ⟨[], rfl, .nil⟩
    | cons h _ ih =>
      obtain ⟨a, rfl, ha⟩ := h
      obtain ⟨as, rfl, has⟩ := ih
      exact ⟨a :: as, rfl, .cons ha has⟩
  · rintro ⟨as, rfl, h⟩
    induction h with
    | nil => exact .nil
    | cons h _ ih => exact .cons ⟨_, rfl, h⟩ ih

/-! ### First tokens -/

theorem Derives.ne_nil {room : Nat} {p : Precedence} {ts : List Token} {e : Expr}
    {bad : List Token} (h : Derives room p ts e bad) : ts ≠ [] := by
  induction h <;> simp_all

theorem Declaration.ne_nil {room : Nat} {ts : List Token} {s : Stmt} {bad : List Token}
    (h : Declaration room ts s bad) : ts ≠ [] := by
  cases h <;> simp

/-- There is a token in front of the one that closes the declaration. -/
theorem Declaration.one_lt_length {room : Nat} {ts : List Token} {s : Stmt} {bad : List Token}
    (h : Declaration room ts s bad) : 1 < ts.length := by
  cases h with
  | expression h _ _ => simpa using List.length_pos_iff.2 h.ne_nil
  | _ => simp

/-- A program that is not empty starts with a declaration. -/
theorem Program.exists_cons {stop : List TokenKind} {room : Nat} {t : Token} {ts : List Token}
    {body : List Stmt} (h : Program stop room (t :: ts) body []) :
    ∃ us vs first rest, ts = us ++ vs ∧ body = first :: rest ∧
      Declaration room (t :: us) first [] ∧ Program stop room vs rest [] := by
  generalize hbad : ([] : List Token) = bad at h
  generalize hts : t :: ts = us at h
  cases h with
  | nil => cases hts
  | @cons _ _ us first _ vs rest _ hdecl _ hprogram =>
    obtain ⟨rfl, rfl⟩ := List.append_eq_nil_iff.1 hbad.symm
    obtain ⟨u, us, rfl⟩ := List.exists_cons_of_ne_nil hdecl.ne_nil
    obtain ⟨rfl, rfl⟩ : t = u ∧ ts = us ++ vs := List.cons_eq_cons.1 hts
    exact ⟨us, vs, first, rest, rfl, rfl, hdecl, hprogram⟩

theorem Program.declaration {stop : List TokenKind} {room : Nat} {ts : List Token} {stmt : Stmt}
    {bad : List Token} (h : Program stop room ts [stmt] bad) : Declaration room ts stmt bad := by
  cases h with
  | cons hdecl _ hnil =>
    cases hnil
    rwa [List.append_nil, List.append_nil]

theorem Derives.headNotIn_closeCurly {room : Nat} {p : Precedence} {ts : List Token} {e : Expr}
    {bad : List Token} (h : Derives room p ts e bad) (ht : RegularTokens ts) :
    HeadNotIn [.closeCurly] ts := by
  induction h with
  | literal h =>
    rcases (ht _ (List.mem_singleton.2 rfl)).2.kind_of_literal h with hk | hk <;> simp [hk]
  | false h _ => simp [h]
  | true h _ => simp [h]
  | nil h _ => simp [h]
  | var h _ => simp [h]
  | grouping ho _ _ _ _ => simp [ho]
  | operand _ _ ih => exact ih ht
  | unary ho _ _ =>
    rw [headNotIn_cons]
    intro hk
    rw [List.mem_singleton.1 hk] at ho
    revert ho
    decide
  | binary hl _ _ ihl _ => exact (ihl ht.of_append.1).append hl.ne_nil _
  | assign hl _ _ ihl _ => exact (ihl ht.of_append.1).append hl.ne_nil _
  | misplaced hl _ _ _ ihl _ => exact (ihl ht.of_append.1).append hl.ne_nil _
  | next _ _ ih => exact ih ht

/-- Regular declarations do not look like the end of a block. -/
theorem Declaration.headNotIn_closeCurly {room : Nat} {ts : List Token} {s : Stmt}
    {bad : List Token} (h : Declaration room ts s bad) (ht : RegularTokens ts) :
    HeadNotIn [.closeCurly] ts := by
  cases h with
  | var hk _ _ => simp [hk]
  | init hk _ _ _ _ => simp [hk]
  | print hk _ _ => simp [hk]
  | block ho _ _ => simp [ho]
  | expression h _ _ => exact (h.headNotIn_closeCurly ht.of_append.1).append h.ne_nil _

/-! ### Levels, and derivations without misplaced equals signs -/

theorem Derives.mono {room room' : Nat} {p : Precedence} {ts : List Token} {e : Expr}
    {bad : List Token} (h : Derives room p ts e bad) (hr : room ≤ room') :
    Derives room' p ts e bad := by
  induction h generalizing room' with
  | literal h => exact .literal h
  | false h hl => exact .false h hl
  | true h hl => exact .true h hl
  | nil h hl => exact .nil h hl
  | var h hl => exact .var h hl
  | grouping ho hl _ hc ih =>
    obtain ⟨r, rfl⟩ := Nat.exists_eq_add_one.2 (Nat.lt_of_lt_of_le (Nat.succ_pos _) hr)
    exact .grouping ho hl (ih (by omega)) hc
  | operand _ hn ih => exact .operand (ih hr) hn
  | unary ho _ ih =>
    obtain ⟨r, rfl⟩ := Nat.exists_eq_add_one.2 (Nat.lt_of_lt_of_le (Nat.succ_pos _) hr)
    exact .unary ho (ih (by omega))
  | binary _ ho _ ihl ihr => exact .binary (ihl hr) ho (ihr hr)
  | assign _ hq _ iht ihv =>
    obtain ⟨r, rfl⟩ := Nat.exists_eq_add_one.2 (Nat.lt_of_lt_of_le (Nat.succ_pos _) hr)
    exact .assign (iht hr) hq (ihv (by omega))
  | misplaced _ he hq _ iht ihv =>
    obtain ⟨r, rfl⟩ := Nat.exists_eq_add_one.2 (Nat.lt_of_lt_of_le (Nat.succ_pos _) hr)
    exact .misplaced (iht hr) he hq (ihv (by omega))
  | next hp _ ih => exact .next hp (ih hr)

/-- An operand that is a variable is a single name. -/
theorem Derives.eq_singleton_of_var {room : Nat} {p : Precedence} {ts : List Token} {n : Token}
    {bad : List Token} (h : Derives room p ts (.var n) bad) :
    ts = [n] ∧ n.kind = .identifier ∧ bad = [] := by
  generalize hv : Expr.var n = v at h
  induction h with
  | var h _ => cases hv; exact ⟨rfl, h, rfl⟩
  | operand _ _ ih => exact ih hv
  | misplaced _ he _ _ _ _ => exact absurd hv.symm (he n)
  | next _ _ ih => exact ih hv
  | _ => cases hv

/-- Without misplaced equals signs the derivation is one of the grammar. -/
theorem Derives.strict {room : Nat} {p : Precedence} {ts : List Token} {e : Expr}
    (h : Derives room p ts e []) : Grammar.Derives room p ts e := by
  generalize hb : ([] : List Token) = bad at h
  induction h with
  | literal h => exact .literal h
  | false h _ => exact .false h
  | true h _ => exact .true h
  | nil h _ => exact .nil h
  | var h _ => exact .var h
  | grouping ho _ _ hc ih => exact .grouping ho (ih hb) hc
  | operand _ _ ih => exact .next (ih hb)
  | unary ho _ ih => exact .unary ho (ih hb)
  | binary _ ho _ ihl ihr =>
    obtain ⟨hl, hr⟩ := List.append_eq_nil_iff.1 hb.symm
    exact .binary (ihl hl.symm) ho (ihr hr.symm)
  | assign ht hq _ _ ihv =>
    obtain ⟨_, hr⟩ := List.append_eq_nil_iff.1 hb.symm
    obtain ⟨rfl, hn, _⟩ := ht.eq_singleton_of_var
    exact .assign hn hq (ihv hr.symm)
  | misplaced => simp at hb
  | next _ _ ih => exact .next (ih hb)

/-- An operand is an expression of every looser precedence. -/
theorem Derives.loosen {room : Nat} {p : Precedence} {ts : List Token} {e : Expr}
    {bad : List Token} (h : Derives room .unary ts e bad) (hp : p ≠ .primary) :
    Derives room p ts e bad := by
  have factor : Derives room .factor ts e bad := .next (by decide) h
  have term : Derives room .term ts e bad := .next (by decide) factor
  have comparison : Derives room .comparison ts e bad := .next (by decide) term
  have equality : Derives room .equality ts e bad := .next (by decide) comparison
  have assignment : Derives room .assignment ts e bad := .next (by decide) equality
  cases p with
  | default => exact .next (by decide) assignment
  | assignment => exact assignment
  | equality => exact equality
  | comparison => exact comparison
  | term => exact term
  | factor => exact factor
  | unary => exact h
  | primary => exact absurd rfl hp

mutual

theorem Declaration.strict {room : Nat} {ts : List Token} {s : Stmt} {bad : List Token} :
    Declaration room ts s bad → bad = [] → Grammar.Declaration room ts s
  | .var hk hn hs, _ => .var hk hn hs
  | .init hk hn hq h hs, hb => .init hk hn hq (hb ▸ h).strict hs
  | .print hk h hs, hb => .print hk (hb ▸ h).strict hs
  | .block ho h hc, hb => .block ho (h.strict hb) hc
  | .expression h _ hs, hb => .expression (hb ▸ h).strict hs

theorem Program.strict {stop : List TokenKind} {room : Nat} {ts : List Token} {body : List Stmt}
    {bad : List Token} : Program stop room ts body bad → bad = [] → Grammar.Program room ts body
  | .nil, _ => .nil
  | .cons h _ hs, hb =>
    .cons (h.strict (List.append_eq_nil_iff.1 hb).1) (hs.strict (List.append_eq_nil_iff.1 hb).2)

end

mutual

theorem Declaration.mono {room room' : Nat} {ts : List Token} {s : Stmt} {bad : List Token} :
    Declaration room ts s bad → room ≤ room' → Declaration room' ts s bad
  | .var hk hn hs, _ => .var hk hn hs
  | .init hk hn hq h hs, hr => .init hk hn hq (h.mono hr) hs
  | .print hk h hs, hr => .print hk (h.mono hr) hs
  | .block ho h hc, hr => by
    obtain ⟨r', rfl⟩ := Nat.exists_eq_add_one.2 (Nat.lt_of_lt_of_le (Nat.succ_pos _) hr)
    exact .block ho (h.mono (by omega)) hc
  | .expression h hn hs, hr => .expression (h.mono hr) hn hs

theorem Program.mono {stop : List TokenKind} {room room' : Nat} {ts : List Token}
    {body : List Stmt} {bad : List Token} :
    Program stop room ts body bad → room ≤ room' → Program stop room' ts body bad
  | .nil, _ => .nil
  | .cons h hn hs, hr => .cons (h.mono hr) hn (hs.mono hr)

end

end Tolerant

namespace Grammar

open Tolerant

theorem Derives.ne_nil {room : Nat} {p : Precedence} {ts : List Token} {e : Expr}
    (h : Derives room p ts e) : ts ≠ [] := by
  induction h <;> simp_all

/-- The kinds that a regular operand without a prefix operator starts with. -/
def operandStarts : List TokenKind :=
  [.number, .string, .kwFalse, .kwTrue, .kwNil, .identifier, .openParen]

private theorem Derives.head_mem {room : Nat} {p : Precedence} {ts : List Token} {e : Expr}
    (h : Derives room p ts e) (ht : RegularTokens ts) : ∀ t ∈ ts.head?,
      t.kind ∈ operandStarts ∨ p ≠ .primary ∧ t.kind ∈ prefixOperators := by
  induction h with
  | literal h =>
    have hk := (ht _ (List.mem_singleton.2 rfl)).2.kind_of_literal h
    rcases hk with hk | hk <;> simp [operandStarts, hk]
  | false h => simp [operandStarts, h]
  | true h => simp [operandStarts, h]
  | nil h => simp [operandStarts, h]
  | var h => simp [operandStarts, h]
  | grouping ho _ _ _ => simp [operandStarts, ho]
  | unary ho _ _ =>
    rintro t ⟨⟩
    exact .inr ⟨by decide, ho⟩
  | @binary _ _ ts _ _ _ _ hl _ _ ihl _ =>
    obtain ⟨t, us, rfl⟩ := List.exists_cons_of_ne_nil hl.ne_nil
    exact ihl ht.of_append.1
  | assign hn _ _ _ => simp [operandStarts, hn]
  | @next _ p _ _ _ ih =>
    intro t hh
    refine (ih ht t hh).imp_right fun ⟨hp, hk⟩ => ⟨?_, hk⟩
    rintro rfl
    exact hp rfl

/-- Regular tokens of an expression do not start like a statement of another kind. -/
private theorem Derives.headNotIn_statementKinds {room : Nat} {p : Precedence} {ts : List Token}
    {e : Expr} (h : Derives room p ts e) (ht : RegularTokens ts) : HeadNotIn statementKinds ts := by
  have key : ∀ k ∈ operandStarts ++ prefixOperators, k ∉ statementKinds := by decide
  intro t hh
  rcases h.head_mem ht t hh with hs | ⟨-, hs⟩
  · exact key _ (List.mem_append_left _ hs)
  · exact key _ (List.mem_append_right _ hs)

private theorem Derives.headNotIn_prefixOperators {room : Nat} {ts : List Token} {e : Expr}
    (h : Derives room .primary ts e) (ht : RegularTokens ts) : HeadNotIn prefixOperators ts := by
  have key : ∀ k ∈ operandStarts, k ∉ prefixOperators := by decide
  intro t hh
  rcases h.head_mem ht t hh with hs | ⟨hp, -⟩
  · exact key _ hs
  · exact absurd rfl hp

/-- Regular tokens of the grammar are read by the tolerant one, without misplaced equals signs. -/
theorem Derives.tolerant {room : Nat} {p : Precedence} {ts : List Token} {e : Expr}
    (h : Derives room p ts e) (ht : RegularTokens ts) : Tolerant.Derives room p ts e [] := by
  induction h with
  | literal h => exact .literal h
  | false h => exact .false h (ht.literal_eq_none (by simp) (by simp [h]) (by simp [h]))
  | true h => exact .true h (ht.literal_eq_none (by simp) (by simp [h]) (by simp [h]))
  | nil h => exact .nil h (ht.literal_eq_none (by simp) (by simp [h]) (by simp [h]))
  | var h => exact .var h (ht.literal_eq_none (by simp) (by simp [h]) (by simp [h]))
  | grouping ho _ hc ih =>
    have hl := ht.literal_eq_none (List.mem_cons_self ..) (by simp [ho]) (by simp [ho])
    exact .grouping ho hl (ih (ht.of_cons.of_append).1) hc
  | unary ho _ ih => exact .unary ho (ih ht.of_cons)
  | binary _ ho _ ihl ihr => exact .binary (ihl ht.of_append.1) ho (ihr ht.of_append.2.of_cons)
  | @assign room n _ _ _ hn hq _ ih =>
    have hl := ht.literal_eq_none (List.mem_cons_self ..) (by simp [hn]) (by simp [hn])
    have hhead : HeadNotIn prefixOperators [n] := by simp [prefixOperators, hn]
    have target : Tolerant.Derives (room + 1) .equality [n] (.var n) [] :=
      .loosen (.operand (.var hn hl) hhead) (by decide)
    exact .assign target hq (ih ht.of_cons.of_cons)
  | @next room p ts e h ih =>
    cases p with
    -- here the rules of the tolerant grammar exclude each other
    | unary => exact .operand (ih ht) (h.headNotIn_prefixOperators ht)
    | primary => exact ih ht
    | _ => exact .next (by decide) (ih ht)

mutual

theorem Declaration.tolerant {room : Nat} {ts : List Token} {s : Stmt} :
    Declaration room ts s → RegularTokens ts → Tolerant.Declaration room ts s []
  | .var hk hn hs, _ => .var hk hn hs
  | .init hk hn hq h hs, ht =>
    .init hk hn hq (h.tolerant ht.of_cons.of_cons.of_cons.of_append.1) hs
  | .print hk h hs, ht => .print hk (h.tolerant ht.of_cons.of_append.1) hs
  | .block ho h hc, ht =>
    .block ho (h.tolerant ht.of_cons.of_append.1 (List.Subset.refl _)) hc
  | .expression h hs, ht =>
    .expression (h.tolerant ht.of_append.1) (h.headNotIn_statementKinds ht.of_append.1) hs

theorem Program.tolerant {stop : List TokenKind} {room : Nat} {ts : List Token}
    {body : List Stmt} : Program room ts body → RegularTokens ts → stop ⊆ [.closeCurly] →
    Tolerant.Program stop room ts body []
  | .nil, _, _ => .nil
  | .cons h hs, ht, hstop =>
    have head := (h.tolerant ht.of_append.1).headNotIn_closeCurly ht.of_append.1
    .cons (h.tolerant ht.of_append.1) (head.of_subset hstop)
      (hs.tolerant ht.of_append.2 hstop)

end

end Grammar

end Lox

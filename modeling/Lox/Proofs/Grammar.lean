import Lox.Precedence
import Lox.Token.Stream
import Lox.Tree

/-!
# The grammar

Which rows of tokens are expressions, declarations and programs, and of which trees.  A derivation
has a number of levels, `room`: no path in it enters more groupings, operands of prefix operators,
right-hand sides of assignments and blocks than that.  The rules for expressions go by precedence:
an operand is an expression of the next level, or, to the left of a binary operator, of the same
one.
-/

namespace Lox

/-! ### Regular tokens -/

/-- A token as a scan makes it: numbers and strings carry a value, and no other token does. -/
def Token.Regular (t : Token) : Prop :=
  t.literal.isSome ↔ t.kind = .number ∨ t.kind = .string

instance (t : Token) : Decidable t.Regular :=
  inferInstanceAs (Decidable (_ ↔ _))

theorem Token.Regular.literal_eq_none {t : Token} (h : t.Regular) (hn : t.kind ≠ .number)
    (hs : t.kind ≠ .string) : t.literal = none := by
  have key : ¬ t.literal.isSome := fun hl => (h.1 hl).elim hn hs
  simpa using key

theorem Token.Regular.kind_of_literal {t : Token} (h : t.Regular) {v : Literal}
    (hv : t.literal = some v) : t.kind = .number ∨ t.kind = .string :=
  h.1 (by simp [hv])

/-- A token of the kind that carries no value, as it is put in where one is missing. -/
def Token.plain (kind : TokenKind) : Token :=
  ⟨.start, kind, kind.text, none⟩

/-- The tokens are regular, and none of them is an end of input. -/
def RegularTokens (ts : List Token) : Prop :=
  ∀ t ∈ ts, t.kind ≠ .eof ∧ t.Regular

instance (ts : List Token) : Decidable (RegularTokens ts) :=
  inferInstanceAs (Decidable (∀ t ∈ ts, _))

theorem RegularTokens.append {ts us : List Token} (ht : RegularTokens ts) (hu : RegularTokens us) :
    RegularTokens (ts ++ us) := by
  intro t h
  rcases List.mem_append.1 h with h | h
  · exact ht t h
  · exact hu t h

theorem RegularTokens.of_cons {t : Token} {ts : List Token} (h : RegularTokens (t :: ts)) :
    RegularTokens ts :=
  fun u hu => h u (List.mem_cons_of_mem _ hu)

theorem RegularTokens.of_append {ts us : List Token} (h : RegularTokens (ts ++ us)) :
    RegularTokens ts ∧ RegularTokens us :=
  ⟨fun t ht => h t (List.mem_append_left _ ht), fun t ht => h t (List.mem_append_right _ ht)⟩

theorem RegularTokens.literal_eq_none {ts : List Token} {t : Token} (h : RegularTokens ts)
    (ht : t ∈ ts) (hn : t.kind ≠ .number) (hs : t.kind ≠ .string) : t.literal = none :=
  (h t ht).2.literal_eq_none hn hs

/-- The only end of input is at the end, and all tokens are regular. -/
structure TokenStream.WellFormed (s : TokenStream) : Prop where
  body : RegularTokens s.body
  last : s.last.literal = none

/-! ### Derivations -/

namespace Grammar

inductive Derives : (room : Nat) → Precedence → List Token → Expr → Prop
  | literal {room t v} (h : t.literal = some v) : Derives room .primary [t] (.literal v)
  | false {room t} (h : t.kind = .kwFalse) : Derives room .primary [t] (.literal (.bool false))
  | true {room t} (h : t.kind = .kwTrue) : Derives room .primary [t] (.literal (.bool true))
  | nil {room t} (h : t.kind = .kwNil) : Derives room .primary [t] (.literal .nil)
  | var {room t} (h : t.kind = .identifier) : Derives room .primary [t] (.var t)
  | grouping {room o ts e c} (ho : o.kind = .openParen) (h : Derives room .assignment ts e)
      (hc : c.kind = .closeParen) : Derives (room + 1) .primary (o :: ts ++ [c]) (.grouping e)
  | unary {room o ts e} (ho : o.kind ∈ [TokenKind.not, .dash]) (h : Derives room .unary ts e) :
      Derives (room + 1) .unary (o :: ts) (.unary o e)
  | binary {room p ts l o us r} (hl : Derives room p ts l) (ho : o.kind ∈ p.operators)
      (hr : Derives room p.next us r) : Derives room p (ts ++ o :: us) (.binary l o r)
  | assign {room n q ts v} (hn : n.kind = .identifier) (hq : q.kind = .assignment)
      (h : Derives room .assignment ts v) :
      Derives (room + 1) .assignment (n :: q :: ts) (.assign n v)
  | next {room p ts e} (h : Derives room p.next ts e) : Derives room p ts e

mutual

inductive Declaration : (room : Nat) → List Token → Stmt → Prop
  | var {room k n s} (hk : k.kind = .kwVar) (hn : n.kind = .identifier)
      (hs : s.kind = .semicolon) : Declaration room [k, n, s] (.varDecl n none)
  | init {room k n q ts e s} (hk : k.kind = .kwVar) (hn : n.kind = .identifier)
      (hq : q.kind = .assignment) (h : Derives room .assignment ts e) (hs : s.kind = .semicolon) :
      Declaration room (k :: n :: q :: ts ++ [s]) (.varDecl n (some e))
  | print {room k ts e s} (hk : k.kind = .kwPrint) (h : Derives room .assignment ts e)
      (hs : s.kind = .semicolon) : Declaration room (k :: ts ++ [s]) (.print e)
  | block {room o ts body c} (ho : o.kind = .openCurly) (h : Program room ts body)
      (hc : c.kind = .closeCurly) : Declaration (room + 1) (o :: ts ++ [c]) (.block body)
  | expression {room ts e s} (h : Derives room .assignment ts e) (hs : s.kind = .semicolon) :
      Declaration room (ts ++ [s]) (.expression e)

inductive Program : (room : Nat) → List Token → List Stmt → Prop
  | nil {room} : Program room [] []
  | cons {room ts s us body} (h : Declaration room ts s) (hs : Program room us body) :
      Program room (ts ++ us) (s :: body)

end

end Grammar

end Lox

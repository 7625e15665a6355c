import Lox.Proofs.Parse.Chronicle
import Lox.Proofs.Parse.Levels

/-!
# Where there are too many levels

Groupings, operands of prefix operators, right-hand sides of assignments and blocks lie a level
deeper than what they stand in, and each of them is opened by a token.  An opener may stand inside
of what another one opens; a chain of them that is longer than the number of levels exceeds it
(`Exceeds`).  The key fact: where too much nesting is reported there is such a chain, and the fault
is found at its last opener if that is a parenthesis or a brace, but at the token behind it if it is
an operator (`exceeds_of_tooDeeplyNested`).
-/

namespace Lox

namespace Parse

open Tolerant

variable {α β : Type}

/-! ### Openers -/

/-- What can stand on a level. -/
inductive Content
  | expression (p : Precedence)
  | declarations (stop : Cursor → Bool)

/-- Declarations are read from `c` on, and another one is read from `d`. -/
inductive Reaches (stop : Cursor → Bool) (room : Nat) : Cursor → Cursor → Prop
  | here {c} (hc : stop c = false) : Reaches stop room c c
  | step {c d} (hc : stop c = false)
      (h : Reaches stop room (declaration .standard room c).cursor d) : Reaches stop room c d

/-- The declaration at `c` has an expression, which begins at `d`. -/
inductive Introduces : Cursor → Cursor → Prop
  | expression {c} (hc : c.current.kind ∉ statementKinds) : Introduces c c
  | print {c d k} (hk : k.kind = .kwPrint) (h : c.Passes [k] d) : Introduces c d
  | init {c d k n q} (hk : k.kind = .kwVar) (hn : n.kind = .identifier) (hq : q.kind = .assignment)
      (h : c.Passes [k, n, q] d) : Introduces c d

/-- What stands from `c` on has an opener at `o`, behind which a level deeper begins.  It stands on
a level that has `room` further ones. -/
inductive Opens (room : Nat) : Content → Cursor → Cursor → Content → Prop
  | grouping {c} (hc : c.isAt [.openParen] = true) :
      Opens room (.expression .primary) c c (.expression .assignment)
  | operator {c} (hc : c.isAt prefixOperators = true) :
      Opens room (.expression .unary) c c (.expression .unary)
  | equals {c o ts e bad} (hc : c.Passes ts o) (ht : Derives room .equality ts e bad)
      (ho : o.isAt [.assignment] = true) :
      Opens room (.expression .assignment) c o (.expression .assignment)
  | operand {p c d o k ts e bad} (hc : c.Passes ts d) (hl : Derives room p ts e bad)
      (hd : d.isAt p.operators = true) (h : Opens room (.expression p.next) d.advance o k) :
      Opens room (.expression p) c o k
  | next {p c o k} (h : Opens room (.expression p.next) c o k) : Opens room (.expression p) c o k
  | block {stop c o} (hc : Reaches stop room c o) (ho : o.isAt [.openCurly] = true) :
      Opens room (.declarations stop) c o (.declarations blockEnd)
  | statement {stop c d e o k} (hc : Reaches stop room c d) (hd : Introduces d e)
      (h : Opens room (.expression .assignment) e o k) : Opens room (.declarations stop) c o k

/-- There are openers in what stands from `c` on, each of them inside of what the one in front of it
opens.  The last one is at `o`, and it is one more than the levels. -/
inductive Exceeds : (room : Nat) → Content → Cursor → Cursor → Prop
  | last {k c o k'} (h : Opens 0 k c o k') : Exceeds 0 k c o
  | inside {room k c d k' o} (h : Opens (room + 1) k c d k') (h' : Exceeds room k' d.advance o) :
      Exceeds (room + 1) k c o

namespace Content

/-- What is found when the content is read. -/
def faults (room : Nat) : Content → Cursor → List Fault
  | expression p, c => (Parse.expression room p c).faults
  | declarations stop, c => (many (item stop room) c).faults

end Content

/-- The fault is found at the parenthesis or the brace that is an opener, and behind an operator
that is one. -/
def FoundAtOpener (o : Cursor) (f : Fault) : Prop :=
  o.isAt [.openParen, .openCurly] = true ∧ f.site = o.site ∨
    o.isAt [.not, .dash, .assignment] = true ∧ f.site = o.advance.site

/-- The fault is found on the level that begins behind the opener, or because there is no such
level. -/
def FoundBehind (room : Nat) (k : Content) (o : Cursor) (f : Fault) : Prop :=
  match room with
  | 0 => FoundAtOpener o f
  | room + 1 => f ∈ k.faults room o.advance

/-- The fault is found on a deeper level, or because there is none. -/
def FoundDeeper (room : Nat) (k : Content) (c : Cursor) (f : Fault) : Prop :=
  ∃ o k', Opens room k c o k' ∧ FoundBehind room k' o f

/-! ### Faults of sequences -/

section Faults

variable {f : Fault} {c d : Cursor}

theorem mem_faults_bind {p : Parse α} {g : α → Parse β} (h : f ∈ ((p >>= g) c).faults) :
    f ∈ (p c).faults ∨ ∃ a d notes, p c = ⟨.ok a, d, notes⟩ ∧ f ∈ (g a d).faults := by
  rcases hrun : p c with ⟨e | a, d, notes⟩
  · rw [faults_bind_of_error hrun, hrun] at h
    exact .inl h
  · rw [faults_bind_of_ok hrun, hrun, List.mem_append] at h
    exact h.imp_right fun h => ⟨a, d, notes, rfl, h⟩

theorem mem_faults_skip_bind {g : Unit → Parse β} (h : f ∈ ((skip >>= g) c).faults) :
    f ∈ (g () c.advance).faults := by
  rcases mem_faults_bind h with h | ⟨_, d, notes, hrun, h⟩
  · cases h
  · cases hrun
    exact h

theorem not_mem_faults_pure (a : α) : f ∉ ((pure a : Parse α) c).faults :=
  List.not_mem_nil

/-- A token that is missing is not too much nesting. -/
theorem not_mem_faults_expect {kind : TokenKind} {message : String}
    (hf : f.cause = .tooDeeplyNested) : f ∉ (expect kind message c).faults := by
  intro h
  cases hk : c.isAt [kind] with
  | false =>
    rw [expect_of_isAt_eq_false message hk] at h
    rw [List.mem_singleton.1 h] at hf
    cases hf
  | true =>
    obtain ⟨t, ht, hpass⟩ := Cursor.exists_passes_of_isAt hk
    rw [expect_of_passes message hpass (List.mem_singleton.1 ht)] at h
    cases h

/-- What stands in front of a closing token has all faults of this kind. -/
theorem mem_faults_of_closed {p : Parse α} {kind : TokenKind} {message : String} {g : α → β}
    (h : f ∈ ((p >>= fun a => expect kind message >>= fun _ => pure (g a)) c).faults)
    (hf : f.cause = .tooDeeplyNested) : f ∈ (p c).faults := by
  rcases mem_faults_bind h with h | ⟨a, d, _, -, h⟩
  · exact h
  rcases mem_faults_bind h with h | ⟨_, _, _, -, h⟩
  · exact absurd h (not_mem_faults_expect hf)
  · exact absurd h (not_mem_faults_pure _)

/-- A token of the kinds is passed, or nothing is. -/
theorem mem_faults_accept_bind {kinds : List TokenKind} {g : Option Site → Parse β}
    (h : f ∈ ((accept kinds >>= g) c).faults) :
    c.isAt kinds = true ∧ f ∈ (g (some c.site) c.advance).faults ∨
      c.isAt kinds = false ∧ f ∈ (g none c).faults := by
  cases hk : c.isAt kinds with
  | true =>
    have hrun : accept kinds c = ⟨.ok (some c.site), c.advance, []⟩ := by rw [accept, if_pos hk]
    rw [faults_bind_of_ok hrun, hrun] at h
    exact .inl ⟨rfl, h⟩
  | false =>
    rw [faults_bind_of_ok (accept_of_isAt_eq_false hk), accept_of_isAt_eq_false hk] at h
    exact .inr ⟨rfl, h⟩

/-- A fault of a repetition is found by one of the runs, which all start where `I` holds. -/
theorem exists_of_mem_faults_many {p : Parse (Option α)} {I : Cursor → Prop}
    (hp : ∀ {c d a notes}, I c → p c = ⟨.ok (some a), d, notes⟩ → I d) (hI : I c)
    (h : f ∈ (many p c).faults) : ∃ d, I d ∧ f ∈ (p d).faults := by
  fun_induction Parse.many p c with
  | case1 c a d notes hrun hlt o ih =>
    have hfaults := faults_many_of_some hrun hlt
    rw [many_of_some hrun hlt] at hfaults
    rw [hfaults, List.mem_append] at h
    rcases h with h | h
    · exact ⟨c, hI, h⟩
    · exact ih (hp hI hrun) h
  | case2 c a d notes hrun hlt => exact ⟨c, hI, by rw [hrun]; exact h⟩
  | case3 c d notes hrun => exact ⟨c, hI, by rw [hrun]; exact h⟩
  | case4 c e d notes hrun => exact ⟨c, hI, by rw [hrun]; exact h⟩

end Faults

/-! ### Expressions -/

section Expression

variable {room : Nat} {f : Fault} {c : Cursor}

/-- A production one level deeper, behind an operator that was passed. -/
private theorem foundBehind_operator {p : Precedence}
    (hc : c.isAt [.not, .dash, .assignment] = true)
    (h : f ∈ (nested (deeper room) (fun inner => inner p) c.advance).faults) :
    FoundBehind room (.expression p) c f := by
  cases room with
  | zero => exact .inr ⟨hc, congrArg Fault.site (List.mem_singleton.1 h)⟩
  | succ room => exact h

private theorem foundDeeper_primary (hc : c.Closed) (hf : f.cause = .tooDeeplyNested)
    (h : f ∈ (expression room .primary c).faults) :
    FoundDeeper room (.expression .primary) c f := by
  rw [expression_primary, here_bind_apply] at h
  generalize hq : primaryAt (deeper room) c.current = q at h
  unfold primaryAt at hq
  split at hq <;> subst hq
  case h_6 hl hk =>
    have hpass := hc.passes_advance (.inl (by simp [hk]))
    have hopen : c.isAt [.openParen] = true := hpass.isAt_iff.2 (by simp [hk])
    refine ⟨c, _, .grouping hopen, ?_⟩
    cases room with
    | zero =>
      refine .inl ⟨hpass.isAt_iff.2 (by simp [hk]), ?_⟩
      exact congrArg Fault.site (List.mem_singleton.1 h)
    | succ room =>
      rw [grouping_succ] at h
      exact mem_faults_of_closed (mem_faults_skip_bind h) hf
  case h_7 =>
    rw [List.mem_singleton.1 h] at hf
    cases hf
  all_goals exact absurd (mem_faults_skip_bind h) (not_mem_faults_pure _)

private theorem foundDeeper_unary (hc : c.Closed) (hf : f.cause = .tooDeeplyNested)
    (h : f ∈ (expression room .unary c).faults) : FoundDeeper room (.expression .unary) c f := by
  rw [expression_unary] at h
  rcases mem_faults_accept_bind h with ⟨hk, h⟩ | ⟨-, h⟩
  · rcases mem_faults_bind h with h | ⟨_, _, _, -, h⟩
    · refine ⟨c, _, .operator hk, foundBehind_operator ?_ h⟩
      obtain ⟨t, ht, hpass⟩ := Cursor.exists_passes_of_isAt hk
      exact hpass.isAt_iff.2 (List.mem_append_left [TokenKind.assignment] ht)
    · exact absurd h (not_mem_faults_pure _)
  · obtain ⟨o, k, ho, hfound⟩ := foundDeeper_primary hc hf h
    exact ⟨o, k, .next ho, hfound⟩

/-- The operand behind an operator that follows on what was read. -/
private theorem mem_faults_operation {operators : List TokenKind} {operand : Parse Expr}
    (h : f ∈ (operation operators operand c).faults) :
    c.isAt operators = true ∧ f ∈ (operand c.advance).faults := by
  rcases mem_faults_accept_bind h with ⟨hk, h⟩ | ⟨-, h⟩
  · refine ⟨hk, ?_⟩
    rcases mem_faults_bind h with h | ⟨_, _, _, -, h⟩
    · exact h
    · exact absurd h (not_mem_faults_pure _)
  · exact absurd h (not_mem_faults_pure _)

private theorem exists_of_operation_eq_ok {operators : List TokenKind} {operand : Parse Expr}
    {d : Cursor} {a : Token × Expr} {notes : List Note}
    (h : operation operators operand c = ⟨.ok (some a), d, notes⟩) :
    ∃ n, a.1.kind ∈ operators ∧ c.Passes [a.1] c.advance ∧ operand c.advance = ⟨.ok a.2, d, n⟩ := by
  obtain ⟨o, e, n, n', haccept, h, -⟩ := exists_of_bind_eq_ok h
  cases hk : c.isAt operators with
  | false =>
    rw [accept_of_isAt_eq_false hk] at haccept
    cases haccept
    cases h
  | true =>
    obtain ⟨t, ht, hpass⟩ := Cursor.exists_passes_of_isAt hk
    rw [accept_of_passes hpass ht] at haccept
    cases haccept
    obtain ⟨e, d', n, n', hoperand, hpure, -⟩ := exists_of_bind_eq_ok h
    cases hpure
    exact ⟨n, ht, hpass, hoperand⟩

/-- Behind the operands that were read another one has the fault. -/
private theorem foundDeeper_operators {p : Precedence} (hp : p.operators ≠ [])
    (hnext : ∀ {c : Cursor}, c.Closed → f ∈ (expression room p.next c).faults →
      FoundDeeper room (.expression p.next) c f)
    (hc : c.Closed) (h : f ∈ (expression room p c).faults) :
    FoundDeeper room (.expression p) c f := by
  have hlevel : p ∉ [Precedence.unary, .primary] := by
    intro hmem
    apply hp
    revert hmem
    cases p <;> decide
  -- between the operations what was read is the left operand of the next one
  let I (d : Cursor) : Prop := ∃ ts l bad, c.Passes ts d ∧ Derives room p ts l bad
  rw [expression_of_operators room hp, leftAssoc_eq] at h
  rcases mem_faults_bind h with h | ⟨first, d, notes, hfirst, h⟩
  · obtain ⟨o, k, ho, hfound⟩ := hnext hc h
    exact ⟨o, k, .next ho, hfound⟩
  rcases mem_faults_bind h with h | ⟨_, _, _, -, h⟩
  · obtain ⟨ts, bad, hpass, hderives⟩ := derives_of_expression hc hfirst
    have step {d d' : Cursor} {a : Token × Expr} {n : List Note} (hI : I d)
        (hrun : operation p.operators (expression room p.next) d = ⟨.ok (some a), d', n⟩) :
        I d' := by
      obtain ⟨ts, l, bad, hpass, hl⟩ := hI
      obtain ⟨n, ho, hstep, hoperand⟩ := exists_of_operation_eq_ok hrun
      obtain ⟨us, bad', hus, hr⟩ :=
        derives_of_expression ((hc.of_passes hpass).of_passes hstep) hoperand
      exact ⟨_, _, _, hpass.append (hstep.append hus), .binary hl ho hr⟩
    obtain ⟨d, ⟨ts, l, bad, hpass, hl⟩, h⟩ :=
      exists_of_mem_faults_many step ⟨ts, first, bad, hpass, .next hlevel hderives⟩ h
    obtain ⟨hd, h⟩ := mem_faults_operation h
    obtain ⟨t, -, hstep⟩ := Cursor.exists_passes_of_isAt hd
    obtain ⟨o, k, ho, hfound⟩ := hnext ((hc.of_passes hpass).of_passes hstep) h
    exact ⟨o, k, .operand hpass hl hd ho, hfound⟩
  · exact absurd h (not_mem_faults_pure _)

private theorem foundDeeper_assignment
    (hnext : ∀ {c : Cursor}, c.Closed → f ∈ (expression room .equality c).faults →
      FoundDeeper room (.expression .equality) c f)
    (hc : c.Closed) (hf : f.cause = .tooDeeplyNested)
    (h : f ∈ (expression room .assignment c).faults) :
    FoundDeeper room (.expression .assignment) c f := by
  rw [expression_assignment] at h
  rcases mem_faults_bind h with h | ⟨target, d, notes, htarget, h⟩
  · obtain ⟨o, k, ho, hfound⟩ := hnext hc h
    exact ⟨o, k, .next ho, hfound⟩
  rcases mem_faults_accept_bind h with ⟨hd, h⟩ | ⟨-, h⟩
  · obtain ⟨ts, bad, hpass, hderives⟩ := derives_of_expression hc htarget
    refine ⟨d, _, .equals hpass hderives hd, foundBehind_operator ?_ ?_⟩
    · obtain ⟨t, ht, hstep⟩ := Cursor.exists_passes_of_isAt hd
      exact hstep.isAt_iff.2 (List.mem_append_right [TokenKind.not, .dash] ht)
    · rcases mem_faults_bind h with h | ⟨value, _, _, -, h⟩
      · exact h
      · cases target with
        | var name => exact absurd h (not_mem_faults_pure _)
        | _ =>
          -- that the target is no variable is another fault
          rw [List.mem_singleton.1 h] at hf
          cases hf
  · exact absurd h (not_mem_faults_pure _)

private theorem foundDeeper_expression (p : Precedence) (hc : c.Closed)
    (hf : f.cause = .tooDeeplyNested) (h : f ∈ (expression room p c).faults) :
    FoundDeeper room (.expression p) c f := by
  have unary {c : Cursor} (hc : c.Closed) (h : f ∈ (expression room .unary c).faults) :
      FoundDeeper room (.expression .unary) c f := foundDeeper_unary hc hf h
  have factor {c : Cursor} (hc : c.Closed) (h : f ∈ (expression room .factor c).faults) :
      FoundDeeper room (.expression .factor) c f :=
    foundDeeper_operators (by decide) unary hc h
  have term {c : Cursor} (hc : c.Closed) (h : f ∈ (expression room .term c).faults) :
      FoundDeeper room (.expression .term) c f := foundDeeper_operators (by decide) factor hc h
  have comparison {c : Cursor} (hc : c.Closed)
      (h : f ∈ (expression room .comparison c).faults) :
      FoundDeeper room (.expression .comparison) c f :=
    foundDeeper_operators (by decide) term hc h
  have equality {c : Cursor} (hc : c.Closed) (h : f ∈ (expression room .equality c).faults) :
      FoundDeeper room (.expression .equality) c f :=
    foundDeeper_operators (by decide) comparison hc h
  cases p with
  | default =>
    rw [expression_default] at h
    obtain ⟨o, k, ho, hfound⟩ := foundDeeper_assignment equality hc hf h
    exact ⟨o, k, .next ho, hfound⟩
  | assignment => exact foundDeeper_assignment equality hc hf h
  | equality => exact equality hc h
  | comparison => exact comparison hc h
  | term => exact term hc h
  | factor => exact factor hc h
  | unary => exact unary hc h
  | primary => exact foundDeeper_primary hc hf h

end Expression

/-! ### Declarations -/

section Declaration

variable {room : Nat} {f : Fault} {stop : Cursor → Bool} {c d : Cursor}

theorem Reaches.le (h : Reaches stop room c d) : c ≤ d := by
  induction h with
  | @here c => exact c.le_refl
  | @step c d _ _ ih =>
    exact Cursor.le_trans (respects_chronicled.declaration (.refl room) c).notes.le ih

theorem Introduces.le (h : Introduces c d) : c ≤ d := by
  cases h with
  | expression => exact c.le_refl
  | print _ h => exact ⟨_, h⟩
  | init _ _ _ h => exact ⟨_, h⟩

theorem Opens.le {k k' : Content} (h : Opens room k c d k') : c ≤ d := by
  induction h with
  | @grouping c => exact c.le_refl
  | @operator c => exact c.le_refl
  | equals hc => exact ⟨_, hc⟩
  | @operand _ _ d _ _ _ _ _ hc _ _ _ ih =>
    exact Cursor.le_trans (Cursor.le_trans ⟨_, hc⟩ d.le_advance) ih
  | next _ ih => exact ih
  | block hc => exact hc.le
  | statement hc hd _ ih => exact Cursor.le_trans (Cursor.le_trans hc.le hd.le) ih

/-- The fault of an item is that of a declaration. -/
private theorem mem_faults_item (h : f ∈ (item stop room c).faults) :
    stop c = false ∧ f ∈ (leading room c.current.kind c).faults := by
  cases hstop : stop c with
  | true =>
    rw [item, if_pos hstop] at h
    cases h
  | false =>
    refine ⟨rfl, ?_⟩
    rw [item, hstop] at h
    rcases mem_faults_bind h with h | ⟨_, _, _, -, h⟩
    · rwa [declaration_apply, faults_recovering] at h
    · exact absurd h (not_mem_faults_pure _)

/-- The faults of declarations in a row are those of the declarations. -/
private theorem exists_reaches_of_mem_faults (h : f ∈ (many (item stop room) c).faults) :
    ∃ d, Reaches stop room c d ∧ f ∈ (leading room d.current.kind d).faults := by
  have single {c : Cursor} {o : Outcome (Option (Option Stmt))} (hrun : item stop room c = o)
      (h : f ∈ o.faults) :
      ∃ d, Reaches stop room c d ∧ f ∈ (leading room d.current.kind d).faults := by
    rw [← hrun] at h
    obtain ⟨hstop, h⟩ := mem_faults_item h
    exact ⟨c, .here hstop, h⟩
  fun_induction Parse.many (item stop room) c with
  | case1 c a d notes hrun hlt o ih =>
    have hfaults := faults_many_of_some hrun hlt
    rw [many_of_some hrun hlt] at hfaults
    rw [hfaults, List.mem_append] at h
    rcases h with h | h
    · exact single rfl h
    · obtain ⟨e, hreaches, h⟩ := ih h
      obtain ⟨ho, -⟩ | ⟨b, -, hstop, hdecl⟩ := eq_or_exists_of_item_eq_ok hrun
      · cases ho
      · refine ⟨e, .step hstop ?_, h⟩
        rwa [hdecl]
  | case2 c a d notes hrun _ => exact single hrun h
  | case3 c d notes hrun => exact single hrun h
  | case4 c e d notes hrun => exact single hrun h

/-- The fault of a variable is one of its initializer. -/
private theorem exists_introduces_of_kwVar (hk : c.current.kind = .kwVar) (hc : c.Closed)
    (hf : f.cause = .tooDeeplyNested) (h : f ∈ (leading room .kwVar c).faults) :
    ∃ d, Introduces c d ∧ f ∈ (expression room .assignment d).faults := by
  have hpass := hc.passes_advance (.inl (by simp [hk]))
  rw [leading_kwVar] at h
  rcases mem_faults_bind (mem_faults_skip_bind h) with h | ⟨name, d, _, hname, h⟩
  · exact absurd h (not_mem_faults_expect hf)
  obtain ⟨hstep, hn, -⟩ := passes_of_expect_eq_ok hname
  rcases mem_faults_accept_bind (mem_faults_of_closed h hf) with ⟨hd, h⟩ | ⟨-, h⟩
  · obtain ⟨q, hq, hequals⟩ := Cursor.exists_passes_of_isAt hd
    rcases mem_faults_bind h with h | ⟨_, _, _, -, h⟩
    · refine ⟨d.advance, .init hk hn (List.mem_singleton.1 hq) ?_, h⟩
      exact hpass.append (hstep.append hequals)
    · exact absurd h (not_mem_faults_pure _)
  · exact absurd h (not_mem_faults_pure _)

/-- The fault of a statement other than a block is one of its expression. -/
private theorem exists_introduces (hk : c.current.kind ≠ .openCurly) (hc : c.Closed)
    (hf : f.cause = .tooDeeplyNested) (h : f ∈ (leading room c.current.kind c).faults) :
    ∃ d, Introduces c d ∧ f ∈ (expression room .assignment d).faults := by
  by_cases hmem : c.current.kind ∈ statementKinds
  · simp only [statementKinds, List.mem_cons, List.not_mem_nil, or_false] at hmem
    rcases hmem with hkind | hkind | hkind
    · rw [hkind] at h
      exact exists_introduces_of_kwVar hkind hc hf h
    · rw [hkind, leading_kwPrint] at h
      have hpass := hc.passes_advance (.inl (by simp [hkind]))
      exact ⟨c.advance, .print hkind hpass, mem_faults_of_closed (mem_faults_skip_bind h) hf⟩
    · exact absurd hkind hk
  · rw [leading_of_not_mem room hmem] at h
    exact ⟨c, .expression hmem, mem_faults_of_closed h hf⟩

/-- The brace of a block is passed only if there is a level behind it. -/
private theorem foundBehind_openCurly (hk : c.isAt [.openCurly] = true)
    (hf : f.cause = .tooDeeplyNested) (h : f ∈ (leading room .openCurly c).faults) :
    FoundBehind room (.declarations blockEnd) c f := by
  cases room with
  | zero =>
    obtain ⟨t, ht, hpass⟩ := Cursor.exists_passes_of_isAt hk
    refine .inl ⟨hpass.isAt_iff.2 (List.mem_cons_of_mem _ ht), ?_⟩
    exact congrArg Fault.site (List.mem_singleton.1 h)
  | succ room =>
    rw [leading_openCurly] at h
    exact mem_faults_of_closed (mem_faults_skip_bind h) hf

private theorem foundDeeper_declarations (hc : c.Closed) (hf : f.cause = .tooDeeplyNested)
    (h : f ∈ (many (item stop room) c).faults) : FoundDeeper room (.declarations stop) c f := by
  obtain ⟨d, hreaches, h⟩ := exists_reaches_of_mem_faults h
  have hd := hc.of_le hreaches.le
  by_cases hk : d.current.kind = .openCurly
  · have hpass := hd.passes_advance (.inl (by simp [hk]))
    have hopen : d.isAt [.openCurly] = true := hpass.isAt_iff.2 (by simp [hk])
    rw [hk] at h
    exact ⟨d, _, .block hreaches hopen, foundBehind_openCurly hopen hf h⟩
  · obtain ⟨e, hintroduces, h⟩ := exists_introduces hk hd hf h
    obtain ⟨o, k, ho, hfound⟩ := foundDeeper_expression _ (hd.of_le hintroduces.le) hf h
    exact ⟨o, k, .statement hreaches hintroduces ho, hfound⟩

end Declaration

/-- Where a level is missing there is an opener for every level, and one more. -/
theorem exceeds_of_mem_faults {room : Nat} {k : Content} {c : Cursor} {f : Fault} (hc : c.Closed)
    (hf : f.cause = .tooDeeplyNested) (h : f ∈ k.faults room c) :
    ∃ o, Exceeds room k c o ∧ FoundAtOpener o f := by
  induction room generalizing k c with
  | zero =>
    obtain ⟨o, k', ho, hfound⟩ : FoundDeeper 0 k c f := by
      cases k with
      | expression p => exact foundDeeper_expression p hc hf h
      | declarations stop => exact foundDeeper_declarations hc hf h
    exact ⟨o, .last ho, hfound⟩
  | succ room ih =>
    obtain ⟨d, k', hd, hfound⟩ : FoundDeeper (room + 1) k c f := by
      cases k with
      | expression p => exact foundDeeper_expression p hc hf h
      | declarations stop => exact foundDeeper_declarations hc hf h
    obtain ⟨o, ho, hfound⟩ := ih (hc.of_le (Cursor.le_trans hd.le d.le_advance)) hfound
    exact ⟨o, .inside hd ho, hfound⟩

end Parse

namespace TokenStream

open Parse

/-- Where too much nesting is reported, there are more openers inside of each other than levels.
The fault is found at the last of them if it is a parenthesis or a brace, and otherwise, if it is an
operator, at the token behind it. -/
theorem exceeds_of_tooDeeplyNested {s : TokenStream} (hs : s.WellFormed) {f : Fault}
    (h : f ∈ Note.faults s.parse.notes) (hf : f.cause = .tooDeeplyNested) :
    ∃ o, Exceeds maxNesting (.declarations Cursor.atEnd) s.cursor o ∧ FoundAtOpener o f := by
  obtain ⟨d, hrun⟩ := s.exists_run
  have hmem : f ∈ (program .standard maxNesting s.cursor).faults := by
    rw [hrun]
    exact List.mem_append_left _ h
  rw [program_eq] at hmem
  rcases mem_faults_bind hmem with hmem | ⟨_, _, _, -, hmem⟩
  · exact exceeds_of_mem_faults (closed_cursor hs.kind_ne_eof hs.last) hf hmem
  · exact absurd hmem (not_mem_faults_pure _)

/-- In front of `nil;` there are 129 minus signs, one more than the levels. -/
theorem exceeds_of_dashes :
    let s : TokenStream :=
      ⟨List.replicate 129 (.plain .dash) ++ [.plain .kwNil, .plain .semicolon], .plain .eof, rfl⟩
    let f : Fault := ⟨.tooDeeplyNested, ⟨.plain .kwNil, 129⟩⟩
    s.WellFormed ∧ f ∈ Note.faults s.parse.notes ∧
      ∃ o, Exceeds maxNesting (.declarations Cursor.atEnd) s.cursor o ∧ FoundAtOpener o f := by
  intro s f
  have hs : s.WellFormed := ⟨by decide +kernel, rfl⟩
  have h : f ∈ Note.faults s.parse.notes := by decide +kernel
  exact ⟨hs, h, exceeds_of_tooDeeplyNested hs h rfl⟩

/-- The minus sign without a level is in front of the token where the fault is found, which opens
nothing. -/
theorem not_tooDeeplyNested_at_opener :
    let s : TokenStream :=
      ⟨List.replicate 129 (.plain .dash) ++ [.plain .kwNil, .plain .semicolon], .plain .eof, rfl⟩
    s.WellFormed ∧ ∃ f ∈ Note.faults s.parse.notes, f.cause = .tooDeeplyNested ∧
      f.site.token.kind ∉ [TokenKind.openParen, .openCurly, .not, .dash, .assignment] := by
  intro s
  refine ⟨⟨by decide +kernel, rfl⟩, ⟨.tooDeeplyNested, ⟨.plain .kwNil, 129⟩⟩, ?_, rfl, by decide⟩
  decide +kernel

end TokenStream

end Lox

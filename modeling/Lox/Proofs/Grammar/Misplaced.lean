import Mathlib.Data.List.Perm.Basic
import Lox.Proofs.Grammar.Tolerant

/-!
# Misplaced equals signs

Whether an equals sign is misplaced shows in the tokens in front of it: what stands there, back to
where an operand may begin, has to be a single name (`misplacedEquals`).  A misplaced equals sign
can be left out together with the value behind it (`prune`).  The key facts: in what the tolerant
grammar derives these are the misplaced equals signs of the derivation, and what is left without
them is derived by the grammar, with the same tree (`Program.exists_prunes`).
-/

namespace Lox

/-! ### Left operands -/

/-- What stands to the left of a token, back to where an operand may begin. -/
inductive Operand
  | empty | name | other
deriving DecidableEq

namespace Operand

/-- The kinds of tokens behind which the left operand of an equals sign may begin. -/
def bounds : List TokenKind :=
  [.semicolon, .openCurly, .closeCurly, .kwPrint, .kwVar, .openParen, .assignment]

/-- What stands to the left behind the token. -/
def extend (o : Operand) (t : Token) : Operand :=
  if t.kind ∈ bounds then empty
  else if o = empty ∧ t.kind = .identifier then name
  else other

/-- What stands to the left behind the tokens. -/
def after (o : Operand) (ts : List Token) : Operand :=
  ts.foldl extend o

variable {o : Operand} {t : Token} {ts us : List Token}

@[simp] theorem after_nil (o : Operand) : o.after [] = o := rfl

@[simp] theorem after_cons (o : Operand) (t : Token) (ts : List Token) :
    o.after (t :: ts) = (o.extend t).after ts := rfl

@[simp] theorem after_append (o : Operand) (ts us : List Token) :
    o.after (ts ++ us) = (o.after ts).after us :=
  List.foldl_append

theorem extend_of_mem (o : Operand) (h : t.kind ∈ bounds) : o.extend t = empty :=
  if_pos h

/-- Only a name may stand alone. -/
theorem extend_of_not_mem (h : t.kind ∉ bounds) (hn : o = other ∨ t.kind ≠ .identifier) :
    o.extend t = other := by
  have hn : ¬(o = empty ∧ t.kind = .identifier) := by
    rintro ⟨rfl, hk⟩
    rcases hn with ho | ho
    · cases ho
    · exact ho hk
  rw [extend, if_neg h, if_neg hn]

theorem extend_identifier (h : t.kind = .identifier) : empty.extend t = name := by
  rw [extend, h]
  rfl

end Operand

/-! ### Equals signs -/

/-- The equals signs that have something else than a single name to the left. -/
def misplacedEquals (o : Operand) : List Token → List Token
  | [] => []
  | t :: ts =>
    if t.kind = .assignment ∧ o ≠ .name then t :: misplacedEquals (o.extend t) ts
    else misplacedEquals (o.extend t) ts

/-- The tokens behind the value that the list begins with.  It ends in front of a semicolon, and in
front of a parenthesis that closes none of its own, of which `opened` are open. -/
def behindValue (opened : Nat) : List Token → List Token
  | [] => []
  | t :: ts =>
    if t.kind = .semicolon ∨ t.kind = .closeParen ∧ opened = 0 then t :: ts
    else if t.kind = .closeParen then behindValue (opened - 1) ts
    else if t.kind = .openParen then behindValue (opened + 1) ts
    else behindValue opened ts

theorem length_behindValue_le (opened : Nat) (ts : List Token) :
    (behindValue opened ts).length ≤ ts.length := by
  induction ts generalizing opened with
  | nil => exact Nat.le_refl _
  | cons t ts ih =>
    unfold behindValue
    split
    · exact Nat.le_refl _
    · split
      · exact Nat.le_succ_of_le (ih _)
      · split
        · exact Nat.le_succ_of_le (ih _)
        · exact Nat.le_succ_of_le (ih _)

/-- Leaves out the misplaced equals signs, each with the value behind it. -/
def prune (o : Operand) : List Token → List Token
  | [] => []
  | t :: ts =>
    if t.kind = .assignment ∧ o ≠ .name then prune .other (behindValue 0 ts)
    else t :: prune (o.extend t) ts
termination_by ts => ts.length
decreasing_by
  · exact Nat.lt_succ_of_le (length_behindValue_le 0 ts)
  · exact Nat.lt_succ_self _

section Tokens

variable {o : Operand} {t : Token} {ts us : List Token}

theorem misplacedEquals_append (o : Operand) (ts us : List Token) :
    misplacedEquals o (ts ++ us) = misplacedEquals o ts ++ misplacedEquals (o.after ts) us := by
  induction ts generalizing o with
  | nil => rfl
  | cons t ts ih =>
    rw [List.cons_append, misplacedEquals, misplacedEquals, ih, Operand.after_cons]
    split
    · rfl
    · rfl

theorem misplacedEquals_cons (h : t.kind = .assignment → o = .name) (ts : List Token) :
    misplacedEquals o (t :: ts) = misplacedEquals (o.extend t) ts :=
  if_neg fun ht => ht.2 (h ht.1)

theorem prune_cons (h : t.kind = .assignment → o = .name) (ts : List Token) :
    prune o (t :: ts) = t :: prune (o.extend t) ts := by
  rw [prune, if_neg fun ht => ht.2 (h ht.1)]

theorem prune_of_ne (h : t.kind ≠ .assignment) (o : Operand) (ts : List Token) :
    prune o (t :: ts) = t :: prune (o.extend t) ts :=
  prune_cons (fun hk => absurd hk h) ts

theorem prune_equals (h : t.kind = .assignment) (ho : o ≠ .name) (ts : List Token) :
    prune o (t :: ts) = prune .other (behindValue 0 ts) := by
  rw [prune, if_pos ⟨h, ho⟩]

theorem behindValue_cons {opened : Nat} (hs : t.kind ≠ .semicolon) (hc : t.kind ≠ .closeParen)
    (ho : t.kind ≠ .openParen) (ts : List Token) :
    behindValue opened (t :: ts) = behindValue opened ts := by
  rw [behindValue, if_neg (by simp [hs, hc]), if_neg hc, if_neg ho]

theorem behindValue_openParen {opened : Nat} (h : t.kind = .openParen) (ts : List Token) :
    behindValue opened (t :: ts) = behindValue (opened + 1) ts := by
  rw [behindValue, if_neg (by simp [h]), if_neg (by simp [h]), if_pos h]

theorem behindValue_closeParen {opened : Nat} (h : t.kind = .closeParen) (ts : List Token) :
    behindValue (opened + 1) (t :: ts) = behindValue opened ts := by
  rw [behindValue, if_neg (by simp [h]), if_pos h]
  rfl

/-! ### Tokens behind a value -/

/-- The tokens may follow on the value of an assignment. -/
def Closes (ts : List Token) : Prop :=
  ∃ t us, ts = t :: us ∧ (t.kind = .semicolon ∨ t.kind = .closeParen)

theorem closes_cons_iff : Closes (t :: ts) ↔ t.kind = .semicolon ∨ t.kind = .closeParen := by
  constructor
  · rintro ⟨_, _, h, ht⟩
    cases h
    exact ht
  · intro ht
    exact ⟨t, ts, rfl, ht⟩

theorem Closes.behindValue_eq (h : Closes ts) : behindValue 0 ts = ts := by
  obtain ⟨t, us, rfl, ht⟩ := h
  rw [behindValue, if_pos (by simpa using ht)]

/-- What stands to the left of them does not matter. -/
theorem Closes.prune_eq (h : Closes ts) (o o' : Operand) : prune o ts = prune o' ts := by
  obtain ⟨t, us, rfl, ht⟩ := h
  have hne : t.kind ≠ .assignment := by rcases ht with ht | ht <;> simp [ht]
  have hextend : o.extend t = o'.extend t := by
    rcases ht with hk | hk
    · have hbound : t.kind ∈ Operand.bounds := by simp [hk, Operand.bounds]
      rw [Operand.extend_of_mem o hbound, Operand.extend_of_mem o' hbound]
    · have hbound : t.kind ∉ Operand.bounds := by simp [hk, Operand.bounds]
      have hname : t.kind = .identifier → False := by simp [hk]
      rw [Operand.extend_of_not_mem hbound (.inr hname),
        Operand.extend_of_not_mem hbound (.inr hname)]
  rw [prune_of_ne hne, prune_of_ne hne, hextend]

/-! ### Tokens within operands -/

/-- The kinds of tokens that stand within operands and are neither names nor parentheses. -/
def innerKinds : List TokenKind :=
  [.number, .string, .kwFalse, .kwTrue, .kwNil, .not, .dash, .plus, .slash, .star, .notEquals,
    .equals, .greater, .greaterEquals, .less, .lessEquals]

theorem inner_of_prefixOperators (h : t.kind ∈ Tolerant.prefixOperators) : t.kind ∈ innerKinds := by
  have key : ∀ k ∈ Tolerant.prefixOperators, k ∈ innerKinds := by decide
  exact key _ h

theorem inner_of_operator {p : Precedence} (h : t.kind ∈ p.operators) : t.kind ∈ innerKinds := by
  have key : ∀ k ∈ p.operators, k ∈ innerKinds := by cases p <;> decide
  exact key _ h

theorem inner_of_literal {v : Literal} (h : t.literal = some v) (ht : t.Regular) :
    t.kind ∈ innerKinds := by
  rcases ht.kind_of_literal h with hk | hk <;> simp [innerKinds, hk]

theorem extend_inner (h : t.kind ∈ innerKinds) (o : Operand) : o.extend t = .other := by
  have key : ∀ k ∈ innerKinds, k ∉ Operand.bounds ∧ k ≠ .identifier := by decide
  exact Operand.extend_of_not_mem (key _ h).1 (.inr (key _ h).2)

theorem ne_assignment_of_inner (h : t.kind ∈ innerKinds) : t.kind ≠ .assignment := by
  have key : ∀ k ∈ innerKinds, k ≠ .assignment := by decide
  exact key _ h

theorem misplacedEquals_inner (h : t.kind ∈ innerKinds) (o : Operand) (ts : List Token) :
    misplacedEquals o (t :: ts) = misplacedEquals .other ts := by
  rw [misplacedEquals_cons (fun hk => absurd hk (ne_assignment_of_inner h)), extend_inner h]

theorem behindValue_inner (h : t.kind ∈ innerKinds) (opened : Nat) (ts : List Token) :
    behindValue opened (t :: ts) = behindValue opened ts := by
  have key : ∀ k ∈ innerKinds, k ≠ .semicolon ∧ k ≠ .closeParen ∧ k ≠ .openParen := by decide
  obtain ⟨hs, hc, ho⟩ := key _ h
  exact behindValue_cons hs hc ho ts

end Tokens

namespace Tolerant

/-! ### Expressions -/

/-- The precedences of expressions that an equals sign may go on. -/
def assigningPrecedences : List Precedence :=
  [.default, .assignment]

theorem not_mem_assigningPrecedences_next {p : Precedence} (h : p.operators ≠ []) :
    p.next ∉ assigningPrecedences := by
  revert h
  cases p <;> decide

section Expression

variable {room : Nat} {p : Precedence} {ts : List Token} {e : Expr} {bad : List Token}

/-- An operand that is not a single name is no left side of an equals sign. -/
theorem Derives.after_eq_other (h : Derives room p ts e bad) (ht : RegularTokens ts)
    (hp : p ∉ assigningPrecedences) {o : Operand} (ho : o = .other ∨ ∀ n, e ≠ .var n) :
    o.after ts = .other := by
  induction h generalizing o with
  | @literal _ t v hl => exact extend_inner (inner_of_literal hl (ht t (by simp)).2) o
  | false hk _ => exact extend_inner (by simp [innerKinds, hk]) o
  | true hk _ => exact extend_inner (by simp [innerKinds, hk]) o
  | nil hk _ => exact extend_inner (by simp [innerKinds, hk]) o
  | var hk _ =>
    have ho : o = .other := ho.resolve_right fun h => h _ rfl
    exact Operand.extend_of_not_mem (by simp [hk, Operand.bounds]) (.inl ho)
  | grouping _ _ _ hc _ =>
    rw [Operand.after_append]
    exact Operand.extend_of_not_mem (by simp [hc, Operand.bounds]) (.inr (by simp [hc]))
  | operand _ _ ih => exact ih ht (by decide) ho
  | unary hk _ ih =>
    rw [Operand.after_cons, extend_inner (inner_of_prefixOperators hk)]
    exact ih ht.of_cons hp (.inl rfl)
  | @binary _ p _ _ _ _ _ _ _ _ hk _ _ ihr =>
    have hnext : p.next ∉ assigningPrecedences :=
      not_mem_assigningPrecedences_next (List.ne_nil_of_mem hk)
    rw [Operand.after_append, Operand.after_cons, extend_inner (inner_of_operator hk)]
    exact ihr ht.of_append.2.of_cons hnext (.inl rfl)
  | assign => exact absurd (by decide) hp
  | misplaced => exact absurd (by decide) hp
  | @next _ p _ _ _ hlevel _ ih =>
    refine ih ht ?_ ho
    revert hp hlevel
    cases p <;> decide

/-- An expression has as many closing parentheses as opening ones. -/
theorem Derives.behindValue_append (h : Derives room p ts e bad) (ht : RegularTokens ts)
    (opened : Nat) (us : List Token) : behindValue opened (ts ++ us) = behindValue opened us := by
  induction h generalizing opened us with
  | @literal _ t v hl => exact behindValue_inner (inner_of_literal hl (ht t (by simp)).2) opened us
  | false hk _ => exact behindValue_inner (by simp [innerKinds, hk]) opened us
  | true hk _ => exact behindValue_inner (by simp [innerKinds, hk]) opened us
  | nil hk _ => exact behindValue_inner (by simp [innerKinds, hk]) opened us
  | var hk _ => exact behindValue_cons (by simp [hk]) (by simp [hk]) (by simp [hk]) us
  | @grouping _ _ ts _ _ c hk _ _ hc ih =>
    have hts : RegularTokens ts := ht.of_cons.of_append.1
    rw [List.cons_append, List.cons_append, behindValue_openParen hk, List.append_assoc, ih hts]
    exact behindValue_closeParen hc us
  | operand _ _ ih => exact ih ht opened us
  | unary hk _ ih =>
    rw [List.cons_append, behindValue_inner (inner_of_prefixOperators hk)]
    exact ih ht.of_cons opened us
  | binary _ hk _ ihl ihr =>
    rw [List.append_assoc, ihl ht.of_append.1, List.cons_append,
      behindValue_inner (inner_of_operator hk)]
    exact ihr ht.of_append.2.of_cons opened us
  | assign _ hq _ iht ihv =>
    rw [List.append_assoc, iht ht.of_append.1, List.cons_append,
      behindValue_cons (by simp [hq]) (by simp [hq]) (by simp [hq])]
    exact ihv ht.of_append.2.of_cons opened us
  | misplaced _ _ hq _ iht ihv =>
    rw [List.append_assoc, iht ht.of_append.1, List.cons_append,
      behindValue_cons (by simp [hq]) (by simp [hq]) (by simp [hq])]
    exact ihv ht.of_append.2.of_cons opened us
  | next _ _ ih => exact ih ht opened us

/-- The misplaced equals signs of a derivation are those that have no single name to the left. -/
theorem Derives.misplacedEquals_perm (h : Derives room p ts e bad) (ht : RegularTokens ts)
    {o : Operand} (ho : p ∈ assigningPrecedences → o = .empty) :
    (misplacedEquals o ts).Perm bad := by
  induction h generalizing o with
  | @literal _ t v hl => rw [misplacedEquals_inner (inner_of_literal hl (ht t (by simp)).2) o]; rfl
  | false hk _ => rw [misplacedEquals_inner (by simp [innerKinds, hk]) o]; rfl
  | true hk _ => rw [misplacedEquals_inner (by simp [innerKinds, hk]) o]; rfl
  | nil hk _ => rw [misplacedEquals_inner (by simp [innerKinds, hk]) o]; rfl
  | var hk _ => rw [misplacedEquals_cons (by simp [hk])]; rfl
  | @grouping _ o' ts _ bad c hk _ _ hc ih =>
    have hts : RegularTokens ts := ht.of_cons.of_append.1
    have hlast (o : Operand) : misplacedEquals o [c] = [] := misplacedEquals_cons (by simp [hc]) []
    rw [List.cons_append, misplacedEquals_cons (by simp [hk]),
      Operand.extend_of_mem o (by simp [hk, Operand.bounds]), misplacedEquals_append, hlast,
      List.append_nil]
    exact ih hts fun _ => rfl
  | operand _ _ ih => exact ih ht fun hp => absurd hp (by decide)
  | unary hk _ ih =>
    rw [misplacedEquals_inner (inner_of_prefixOperators hk) o]
    exact ih ht.of_cons fun hp => absurd hp (by decide)
  | @binary _ p _ _ _ _ _ _ _ _ hk _ ihl ihr =>
    have hnext : p.next ∉ assigningPrecedences :=
      not_mem_assigningPrecedences_next (List.ne_nil_of_mem hk)
    rw [misplacedEquals_append, misplacedEquals_inner (inner_of_operator hk)]
    exact (ihl ht.of_append.1 ho).append (ihr ht.of_append.2.of_cons fun hp => absurd hp hnext)
  | @assign _ _ n _ q us _ bad' hn hq _ _ ihv =>
    obtain ⟨rfl, hname, rfl⟩ := hn.eq_singleton_of_var
    obtain rfl := ho (by decide)
    have hext := Operand.extend_identifier hname
    rw [List.cons_append, List.nil_append, misplacedEquals_cons (by simp [hname]), hext,
      misplacedEquals_cons (fun _ => rfl), Operand.extend_of_mem _ (by simp [hq, Operand.bounds])]
    exact ihv ht.of_append.2.of_cons fun _ => rfl
  | @misplaced _ ts _ bad q us _ bad' hl he hq _ ihl ihv =>
    obtain rfl := ho (by decide)
    have hafter : Operand.empty.after ts = .other :=
      hl.after_eq_other ht.of_append.1 (by decide) (.inr he)
    have hcons : misplacedEquals .other (q :: us) = q :: misplacedEquals .empty us := by
      rw [misplacedEquals, if_pos ⟨hq, by decide⟩,
        Operand.extend_of_mem _ (by simp [hq, Operand.bounds])]
    have htarget : (misplacedEquals .empty ts).Perm bad :=
      ihl ht.of_append.1 fun hp => absurd hp (by decide)
    have hvalue : (misplacedEquals .empty us).Perm bad' := ihv ht.of_append.2.of_cons fun _ => rfl
    rw [misplacedEquals_append, hafter, hcons, List.append_assoc]
    have hlast : (q :: bad').Perm (bad' ++ [q]) := (List.perm_append_singleton q bad').symm
    exact (htarget.append (hvalue.cons q)).trans (hlast.append_left bad)
  | @next _ p _ _ _ _ _ ih =>
    refine ih ht fun hp => ho ?_
    revert hp
    cases p <;> decide

/-- Without the misplaced equals signs and their values the same tree is derived, if behind it
stands nothing that would go on the last value. -/
theorem Derives.exists_prune (h : Derives room p ts e bad) (ht : RegularTokens ts) {o : Operand}
    (ho : p ∈ assigningPrecedences → o = .empty) :
    ∃ ts', Grammar.Derives room p ts' e ∧ ts'.Sublist ts ∧
      ∀ us, (p ∈ assigningPrecedences → Closes us) →
        prune o (ts ++ us) = ts' ++ prune (o.after ts) us := by
  induction h generalizing o with
  | @literal _ t v hl =>
    have hinner := inner_of_literal hl (ht t (by simp)).2
    exact ⟨[t], .literal hl, .refl _, fun us _ => prune_of_ne (ne_assignment_of_inner hinner) o us⟩
  | @false _ t hk _ => exact ⟨[t], .false hk, .refl _, fun us _ => prune_of_ne (by simp [hk]) o us⟩
  | @true _ t hk _ => exact ⟨[t], .true hk, .refl _, fun us _ => prune_of_ne (by simp [hk]) o us⟩
  | @nil _ t hk _ => exact ⟨[t], .nil hk, .refl _, fun us _ => prune_of_ne (by simp [hk]) o us⟩
  | @var _ t hk _ => exact ⟨[t], .var hk, .refl _, fun us _ => prune_of_ne (by simp [hk]) o us⟩
  | @grouping _ b ts _ bad c hb _ _ hc ih =>
    have hext : o.extend b = .empty := Operand.extend_of_mem o (by simp [hb, Operand.bounds])
    obtain ⟨ts', hderives, hsub, hprune⟩ := ih (o := .empty) ht.of_cons.of_append.1 fun _ => rfl
    refine ⟨b :: ts' ++ [c], .grouping hb hderives hc, (hsub.cons_cons b).append_right [c],
      fun us _ => ?_⟩
    have hinner := hprune (c :: us) fun _ => closes_cons_iff.2 (.inr hc)
    rw [List.append_assoc, List.cons_append, List.singleton_append, prune_of_ne (by simp [hb]),
      hext, hinner, prune_of_ne (by simp [hc])]
    simp [hext]
  | operand _ _ ih =>
    have hlevel : Precedence.primary ∉ assigningPrecedences := by decide
    obtain ⟨ts', hderives, hsub, hprune⟩ := ih (o := o) ht fun hp => absurd hp hlevel
    exact ⟨ts', .next hderives, hsub, fun us _ => hprune us fun hp => absurd hp hlevel⟩
  | @unary _ b ts _ _ hb _ ih =>
    obtain ⟨ts', hderives, hsub, hprune⟩ :=
      ih (o := o.extend b) ht.of_cons fun hp => absurd hp (by decide)
    refine ⟨b :: ts', .unary hb hderives, hsub.cons_cons b, fun us hus => ?_⟩
    have hne : b.kind ≠ .assignment := ne_assignment_of_inner (inner_of_prefixOperators hb)
    rw [List.cons_append, prune_of_ne hne, hprune us hus]
    rfl
  | @binary _ p ls _ _ b rs _ _ _ hb _ ihl ihr =>
    have hnext : p.next ∉ assigningPrecedences :=
      not_mem_assigningPrecedences_next (List.ne_nil_of_mem hb)
    have hlevel : p ∉ assigningPrecedences := by
      revert hb
      cases p <;> simp [Precedence.operators, assigningPrecedences]
    obtain ⟨ls', hl, hlsub, hlprune⟩ := ihl (o := o) ht.of_append.1 fun hp => absurd hp hlevel
    obtain ⟨rs', hr, hrsub, hrprune⟩ := ihr (o := (o.after ls).extend b) ht.of_append.2.of_cons
      fun hp => absurd hp hnext
    refine ⟨ls' ++ b :: rs', .binary hl hb hr, hlsub.append (hrsub.cons_cons b), fun us _ => ?_⟩
    rw [List.append_assoc, List.cons_append, hlprune _ fun hp => absurd hp hlevel,
      prune_of_ne (ne_assignment_of_inner (inner_of_operator hb)),
      hrprune us fun hp => absurd hp hnext, Operand.after_append, Operand.after_cons,
      List.append_assoc, List.cons_append]
  | @assign _ _ n _ q vs _ bad' hn hq _ _ ihv =>
    obtain ⟨rfl, hname, rfl⟩ := hn.eq_singleton_of_var
    obtain rfl := ho (by decide)
    have hext := Operand.extend_identifier hname
    have hequals : Operand.name.extend q = .empty :=
      Operand.extend_of_mem _ (by simp [hq, Operand.bounds])
    obtain ⟨vs', hv, hsub, hprune⟩ := ihv (o := .empty) ht.of_append.2.of_cons fun _ => rfl
    refine ⟨n :: q :: vs', .assign hname hq hv, (hsub.cons_cons q).cons_cons n, fun us hus => ?_⟩
    show prune .empty (n :: q :: (vs ++ us)) = _
    rw [prune_of_ne (by simp [hname]), hext, prune_cons (fun _ => rfl), hequals, hprune us hus]
    simp [hext, hequals]
  | @misplaced _ ts e bad q vs _ bad' hl he hq hv ihl _ =>
    obtain rfl := ho (by decide)
    have hlevel : Precedence.equality ∉ assigningPrecedences := by decide
    have hafter : Operand.empty.after ts = .other :=
      hl.after_eq_other ht.of_append.1 hlevel (.inr he)
    obtain ⟨ts', hderives, hsub, hprune⟩ :=
      ihl (o := .empty) ht.of_append.1 fun hp => absurd hp hlevel
    refine ⟨ts', .next hderives, hsub.trans (List.sublist_append_left ..), fun us hus => ?_⟩
    have hus := hus (by decide)
    -- the value ends where the tokens begin that follow on the assignment
    rw [List.append_assoc, List.cons_append, hprune _ fun hp => absurd hp hlevel, hafter,
      prune_equals hq (by decide), hv.behindValue_append ht.of_append.2.of_cons,
      hus.behindValue_eq, hus.prune_eq]
  | @next _ p _ _ _ _ _ ih =>
    have hlevel (hp : p.next ∈ assigningPrecedences) : p ∈ assigningPrecedences := by
      revert hp
      cases p <;> decide
    obtain ⟨ts', hderives, hsub, hprune⟩ := ih (o := o) ht fun hp => ho (hlevel hp)
    exact ⟨ts', .next hderives, hsub, fun us hus => hprune us fun hp => hus (hlevel hp)⟩

end Expression

/-! ### Declarations -/

/-- The tokens are those of whole declarations, the signs `bad` are the misplaced ones, and `ts'` is
what is left without them. -/
structure Prunes (ts bad ts' : List Token) : Prop where
  after : Operand.empty.after ts = .empty
  misplaced : (misplacedEquals .empty ts).Perm bad
  sublist : ts'.Sublist ts
  prune : ∀ us, prune .empty (ts ++ us) = ts' ++ Lox.prune .empty us

namespace Prunes

variable {ts us bad bad' ts' us' : List Token} {t : Token}

theorem nil : Prunes [] [] [] :=
  ⟨rfl, .nil, .refl _, fun _ => rfl⟩

theorem append (h : Prunes ts bad ts') (h' : Prunes us bad' us') :
    Prunes (ts ++ us) (bad ++ bad') (ts' ++ us') where
  after := by rw [Operand.after_append, h.after, h'.after]
  misplaced := by
    rw [misplacedEquals_append, h.after]
    exact h.misplaced.append h'.misplaced
  sublist := h.sublist.append h'.sublist
  prune vs := by rw [List.append_assoc, h.prune, h'.prune, List.append_assoc]

/-- A token behind which an operand may begin, other than an equals sign. -/
theorem singleton {k : TokenKind} (ht : t.kind = k) (h : k ∈ Operand.bounds)
    (hne : k ≠ .assignment) : Prunes [t] [] [t] := by
  rw [← ht] at h hne
  refine ⟨Operand.extend_of_mem _ h, ?_, .refl _, fun us => ?_⟩
  · rw [misplacedEquals_cons fun hk => absurd hk hne]
    rfl
  · show Lox.prune .empty (t :: us) = t :: Lox.prune .empty us
    rw [prune_of_ne hne, Operand.extend_of_mem _ h]

/-- The beginning of a variable, up to the token behind its name. -/
theorem header {k n : Token} (hk : k.kind = .kwVar) (hn : n.kind = .identifier)
    (ht : t.kind = .assignment ∨ t.kind = .semicolon) : Prunes [k, n, t] [] [k, n, t] := by
  have hkw (o : Operand) : o.extend k = .empty :=
    Operand.extend_of_mem o (by simp [hk, Operand.bounds])
  have hname : Operand.empty.extend n = .name := Operand.extend_identifier hn
  have hlast (o : Operand) : o.extend t = .empty :=
    Operand.extend_of_mem o (by rcases ht with ht | ht <;> simp [ht, Operand.bounds])
  refine ⟨hlast _, ?_, .refl _, fun us => ?_⟩
  · rw [misplacedEquals_cons (by simp [hk]), hkw, misplacedEquals_cons (by simp [hn]), hname,
      misplacedEquals_cons fun _ => rfl]
    rfl
  · show Lox.prune .empty (k :: n :: t :: us) = k :: n :: t :: Lox.prune .empty us
    rw [prune_of_ne (by simp [hk]), hkw, prune_of_ne (by simp [hn]), hname,
      prune_cons fun _ => rfl, hlast]

/-- An expression with the semicolon behind it. -/
theorem terminated {room : Nat} {e : Expr} {s : Token} (h : Derives room .assignment ts e bad)
    (ht : RegularTokens ts) (hs : s.kind = .semicolon) :
    ∃ ts', Grammar.Derives room .assignment ts' e ∧ Prunes (ts ++ [s]) bad (ts' ++ [s]) := by
  have hbound : s.kind ∈ Operand.bounds := by simp [hs, Operand.bounds]
  have hne : s.kind ≠ .assignment := by simp [hs]
  obtain ⟨ts', hderives, hsub, hprune⟩ := h.exists_prune (o := .empty) ht fun _ => rfl
  refine ⟨ts', hderives, ?_, ?_, hsub.append_right [s], fun us => ?_⟩
  · rw [Operand.after_append]
    exact Operand.extend_of_mem _ hbound
  · have hlast (o : Operand) : misplacedEquals o [s] = [] :=
      misplacedEquals_cons (fun hk => absurd hk hne) []
    rw [misplacedEquals_append, hlast, List.append_nil]
    exact h.misplacedEquals_perm ht fun _ => rfl
  · rw [List.append_assoc, List.singleton_append,
      hprune _ fun _ => closes_cons_iff.2 (.inl hs), prune_of_ne hne,
      Operand.extend_of_mem _ hbound, List.append_assoc, List.singleton_append]

end Prunes

mutual

/-- Without the misplaced equals signs and their values the same declaration is derived. -/
theorem Declaration.exists_prunes {room : Nat} {ts : List Token} {s : Stmt} {bad : List Token} :
    Declaration room ts s bad → RegularTokens ts →
      ∃ ts', Grammar.Declaration room ts' s ∧ Prunes ts bad ts'
  | .var hk hn hs, _ => ⟨_, .var hk hn hs, .header hk hn (.inr hs)⟩
  | .init hk hn hq h hs, ht => by
    obtain ⟨ts', hderives, hprunes⟩ := Prunes.terminated h ht.of_cons.of_cons.of_cons.of_append.1 hs
    exact ⟨_, .init hk hn hq hderives hs, (Prunes.header hk hn (.inl hq)).append hprunes⟩
  | .print hk h hs, ht => by
    obtain ⟨ts', hderives, hprunes⟩ := Prunes.terminated h ht.of_cons.of_append.1 hs
    have hprint := Prunes.singleton hk (by decide) (by decide)
    exact ⟨_, .print hk hderives hs, hprint.append hprunes⟩
  | .block ho h hc, ht => by
    obtain ⟨ts', hprogram, hprunes⟩ := h.exists_prunes ht.of_cons.of_append.1
    have hopen := Prunes.singleton ho (by decide) (by decide)
    have hclose := Prunes.singleton hc (by decide) (by decide)
    have key := hopen.append (hprunes.append hclose)
    rw [List.append_nil] at key
    exact ⟨_, .block ho hprogram hc, key⟩
  | .expression h _ hs, ht => by
    obtain ⟨ts', hderives, hprunes⟩ := Prunes.terminated h ht.of_append.1 hs
    exact ⟨_, .expression hderives hs, hprunes⟩

/-- Without the misplaced equals signs and their values the same program is derived. -/
theorem Program.exists_prunes {stop : List TokenKind} {room : Nat} {ts : List Token}
    {body : List Stmt} {bad : List Token} :
    Program stop room ts body bad → RegularTokens ts →
      ∃ ts', Grammar.Program room ts' body ∧ Prunes ts bad ts'
  | .nil, _ => ⟨[], .nil, .nil⟩
  | .cons h _ hs, ht => by
    obtain ⟨ts', hdecl, hprunes⟩ := h.exists_prunes ht.of_append.1
    obtain ⟨us', hprogram, hprunes'⟩ := hs.exists_prunes ht.of_append.2
    exact ⟨ts' ++ us', .cons hdecl hprogram, hprunes.append hprunes'⟩

end

end Tolerant

end Lox

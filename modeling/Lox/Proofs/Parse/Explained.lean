import Lox.Proofs.Parse.Dispatch

/-!
# Explained runs

A run of a production is explained by the tokens it passes and by the token it stops at: from every
cursor that shows the same tokens it ends in the same way.  Either it yields a value that a relation
gives to the tokens passed, or it fails at the token it stops at.  In that case the tokens passed are
the beginning of tokens that the relation accepts, and something is missing behind them.  If all
levels are in use, more levels may be needed to accept them; the relations therefore have a number
of additional levels as an argument.  A production that recovers from faults may also go on behind
the first panic; then this panic alone is explained.

There is one rule for each combinator (`Explained.bind`, `Explained.many` and so on), so that a
production is explained by following its definition.
-/

namespace Lox

namespace Parse

variable {α β : Type}

/-! ### Endings -/

inductive Ending (α : Type)
  | value (a : α) (bad : List Token)
  | fault (cause : Cause) (bad : List Token)
  | panic (cause : Cause)

/-- The production ends in this way at the cursor `d`, or has its first panic there. -/
def Ending.Of (p : Parse α) (c d : Cursor) : Ending α → Prop
  | value a bad => Yields p c a bad d
  | fault cause bad => Fails p c cause bad d
  | panic cause => (p c).firstPanic? = some ⟨cause, d.site⟩

theorem Ending.Of.congr {p q : Parse α} {c c' d : Cursor} {e : Ending α} (h : e.Of p c d)
    (hq : q c' = p c) : e.Of q c' d := by
  unfold Ending.Of Yields Fails at *
  rwa [hq]

/-- Regular tokens can be added so that the relation accepts all of them. -/
def Completable (R : List Token → α → List Token → Prop) (ts : List Token) : Prop :=
  ∃ us a bad, RegularTokens us ∧ R (ts ++ us) a bad

theorem completable_of {R : List Token → α → List Token → Prop} {ts : List Token} {a : α}
    {bad : List Token} (h : R ts a bad) : Completable R ts :=
  ⟨[], a, bad, by decide, by rwa [List.append_nil]⟩

/-- Some regular tokens have to be added so that the relation accepts all of them, with more levels
if they were the cause of a panic. -/
def Begins (R : Nat → List Token → α → List Token → Prop) (cause : Cause) (ts : List Token) :
    Prop :=
  ∃ k us a bad, (cause ≠ .tooDeeplyNested → k = 0) ∧ us ≠ [] ∧ RegularTokens us ∧
    R k (ts ++ us) a bad

theorem Begins.trans {R : Nat → List Token → α → List Token → Prop}
    {R' : Nat → List Token → β → List Token → Prop} {cause : Cause} {ts ts' : List Token}
    (h : Begins R cause ts)
    (hR : ∀ {k us a bad}, R k (ts ++ us) a bad → Completable (R' k) (ts' ++ us)) :
    Begins R' cause ts' := by
  obtain ⟨k, us, a, bad, hk, hne, hus, h⟩ := h
  obtain ⟨vs, b, bad', hvs, h'⟩ := hR h
  rw [List.append_assoc] at h'
  exact ⟨k, us ++ vs, b, bad', hk, by simp [hne], hus.append hvs, h'⟩

/-- What may happen when the tokens `ts` were passed up to the cursor `d`. -/
def Ending.Allowed (recovers : Prop) (R : Nat → List Token → α → List Token → Prop)
    (Q : α → Cursor → Prop) (ts : List Token) (d : Cursor) : Ending α → Prop
  | value a bad => R 0 ts a bad ∧ Q a d
  | fault cause _ => cause.isPanic = true ∧ Begins R cause ts
  | panic cause => recovers ∧ cause.isPanic = true ∧ Begins R cause ts

/-- The run of `p` from `c` is explained by the relation `R` between tokens, values and misplaced
equals signs; where a value is yielded, `Q` holds. -/
inductive Explained (recovers : Prop) (R : Nat → List Token → α → List Token → Prop)
    (Q : α → Cursor → Prop) (p : Parse α) (c : Cursor) : Prop
  | mk {ts : List Token} {d : Cursor} {e : Ending α} (hc : c.Passes ts d)
      (ha : e.Allowed recovers R Q ts d)
      (h : ∀ c' d' : Cursor, c'.Passes ts d' → d'.LooksLike d → e.Of p c' d')

/-! ### Rules -/

section Rules

variable {rec : Prop} {R : Nat → List Token → α → List Token → Prop} {Q : α → Cursor → Prop}
  {p : Parse α} {c d : Cursor}

theorem Explained.mono {rec' : Prop} {R' : Nat → List Token → α → List Token → Prop}
    {Q' : α → Cursor → Prop} (h : Explained rec R Q p c) (hr : rec → rec')
    (hR : ∀ {k ts a bad}, R k ts a bad → R' k ts a bad) (hQ : ∀ {a d}, Q a d → Q' a d) :
    Explained rec' R' Q' p c := by
  obtain @⟨ts, d, e, hc, ha, h⟩ := h
  have hbegins {cause : Cause} (h : Begins R cause ts) : Begins R' cause ts :=
    h.trans fun h => completable_of (hR h)
  refine .mk hc ?_ h
  cases e with
  | value a bad => exact ⟨hR ha.1, hQ ha.2⟩
  | fault cause bad => exact ⟨ha.1, hbegins ha.2⟩
  | panic cause => exact ⟨hr ha.1, ha.2.1, hbegins ha.2.2⟩

/-- What a production does where the cursor looks the same is all that matters. -/
theorem Explained.congr {q : Parse α} (h : Explained rec R Q q c)
    (hq : ∀ c' : Cursor, c'.LooksLike c → p c' = q c') : Explained rec R Q p c := by
  obtain ⟨hc, ha, h⟩ := h
  exact .mk hc ha fun c' d' hc' hd' =>
    (h c' d' hc' hd').congr (hq c' (hc.looksLike hc' hd'))

/-- A token is passed, whatever is read behind it. -/
theorem Explained.step {q : Parse α} {t : Token} (hc : c.Passes [t] d)
    (h : Explained rec (fun k us => R k (t :: us)) Q q d)
    (hq : ∀ c' d' : Cursor, c'.Passes [t] d' → p c' = q d') : Explained rec R Q p c := by
  obtain @⟨ts, d', e, hd, ha, h⟩ := h
  refine .mk (e := e) (hc.append hd) ?_ fun c' e' hc' he' => ?_
  · cases e with
    | value a bad => exact ha
    | fault cause bad => exact ha
    | panic cause => exact ha
  · obtain ⟨d', hcd', hde'⟩ := Cursor.passes_cons_iff.1 hc'
    exact (h d' e' hde' he').congr (hq c' d' hcd')

theorem Explained.pure {a : α} (hR : R 0 [] a []) (hQ : Q a c) :
    Explained rec R Q (pure a : Parse α) c := by
  refine .mk (e := .value a []) c.passes_nil ⟨hR, hQ⟩ fun c' d' hc' _ => ?_
  rw [hc'.eq_of_nil]
  exact yields_pure a c'

theorem Explained.refuse {cause : Cause} (hp : cause.isPanic = true) (hR : Begins R cause []) :
    Explained rec R Q (refuse cause : Parse α) c := by
  refine .mk (e := .fault cause []) c.passes_nil ⟨hp, hR⟩ fun c' d' hc' _ => ?_
  rw [hc'.eq_of_nil]
  exact fails_refuse cause c'

/-- If the tokens passed start as those that are accepted have to, this may be added to the
relation. -/
theorem Explained.head (h : Explained rec R Q p c) {kinds : List TokenKind}
    (hc : c.isAt kinds = false) {t : Token} {us : List Token} {a : α} {bad : List Token}
    (ht : t.kind ∉ kinds) (hus : RegularTokens (t :: us)) (hR : R 0 (t :: us) a bad) :
    Explained rec (fun k ts a bad => R k ts a bad ∧ Tolerant.HeadNotIn kinds ts) Q p c := by
  obtain @⟨ts, d, e, hcd, ha, h⟩ := h
  have hhead : Tolerant.HeadNotIn kinds ts := hcd.headNotIn hc
  have hbegins {cause : Cause} (h : Begins R cause ts) :
      Begins (fun k ts a bad => R k ts a bad ∧ Tolerant.HeadNotIn kinds ts) cause ts := by
    by_cases hts : ts = []
    · rw [hts]
      exact ⟨0, t :: us, a, bad, fun _ => rfl, by simp, hus, hR, by simpa using ht⟩
    · obtain ⟨k, us, a, bad, hk, hne, hus, h⟩ := h
      exact ⟨k, us, a, bad, hk, hne, hus, h, hhead.append hts us⟩
  refine .mk hcd ?_ h
  cases e with
  | value a bad => exact ⟨⟨ha.1, hhead⟩, ha.2⟩
  | fault cause bad => exact ⟨ha.1, hbegins ha.2⟩
  | panic cause => exact ⟨ha.1, ha.2.1, hbegins ha.2.2⟩

/-- A sequence.  The relation of the second part depends on what was read by the first. -/
theorem Explained.bind {R' : Nat → List Token → β → List Token → Prop} {Q' : β → Cursor → Prop}
    {f : α → Parse β} (hp : Explained rec R Q p c)
    (hf : ∀ {ts a bad d}, c.Passes ts d → R 0 ts a bad → Q a d →
      Explained rec (fun k us b bad' => R' k (ts ++ us) b (bad ++ bad')) Q' (f a) d)
    (hR : ∀ {k ts a bad}, R k ts a bad → Completable (R' k) ts) :
    Explained rec R' Q' (p >>= f) c := by
  obtain @⟨ts, d, e, hc, ha, h⟩ := hp
  have hbegins {cause : Cause} (h : Begins R cause ts) : Begins R' cause ts := h.trans hR
  -- unless the first part yields a value, the second one is not run
  cases e with
  | fault cause bad =>
    exact .mk (e := .fault cause bad) hc ⟨ha.1, hbegins ha.2⟩
      fun c' d' hc' hd' => (h c' d' hc' hd').bind f
  | panic cause =>
    exact .mk (e := .panic cause) hc ⟨ha.1, ha.2.1, hbegins ha.2.2⟩
      fun c' d' hc' hd' => firstPanic?_bind (h c' d' hc' hd') f
  | value a bad =>
    obtain @⟨us, d₁, e, hd, hb, h₁⟩ := hf hc ha.1 ha.2
    have hbegins₁ {cause : Cause}
        (h : Begins (fun k us b bad' => R' k (ts ++ us) b (bad ++ bad')) cause us) :
        Begins R' cause (ts ++ us) :=
      h.trans fun h => by
        rw [List.append_assoc]
        exact completable_of h
    -- the cursor between the parts looks alike as well, because of the tokens behind it
    have first (c' e' : Cursor) (hc' : c'.Passes (ts ++ us) e') (he' : e'.LooksLike d₁) :
        ∃ d', Yields p c' a bad d' ∧ d'.Passes us e' := by
      obtain ⟨d', hcd', hde'⟩ := Cursor.passes_append_iff.1 hc'
      exact ⟨d', h c' d' hcd' (hd.looksLike hde' he'), hde'⟩
    cases e with
    | value b bad' =>
      refine .mk (e := .value b (bad ++ bad')) (hc.append hd) hb fun c' e' hc' he' => ?_
      obtain ⟨d', hp', hde'⟩ := first c' e' hc' he'
      exact hp'.bind (h₁ d' e' hde' he')
    | fault cause bad' =>
      refine .mk (e := .fault cause (bad ++ bad')) (hc.append hd)
        ⟨hb.1, hbegins₁ hb.2⟩ fun c' e' hc' he' => ?_
      obtain ⟨d', hp', hde'⟩ := first c' e' hc' he'
      exact hp'.bind_fails (h₁ d' e' hde' he')
    | panic cause =>
      refine .mk (e := .panic cause) (hc.append hd)
        ⟨hb.1, hb.2.1, hbegins₁ hb.2.2⟩ fun c' e' hc' he' => ?_
      obtain ⟨d', hp', hde'⟩ := first c' e' hc' he'
      show ((p >>= f) c').firstPanic? = _
      rw [hp'.firstPanic?_bind]
      exact h₁ d' e' hde' he'

/-! ### Single tokens -/

theorem Explained.skip_bind {f : Unit → Parse α} {t : Token} (hc : c.Passes [t] d)
    (h : Explained rec (fun k us => R k (t :: us)) Q (f ()) d) : Explained rec R Q (skip >>= f) c := by
  refine .step hc h fun c' d' hc' => ?_
  rw [← hc'.advance_eq]
  rfl

/-- If the token is missing, it makes no difference that it was looked for. -/
theorem Explained.accept_cases {f : Option Site → Parse α} {kinds : List TokenKind}
    (hsome : ∀ {t d}, c.Passes [t] d → t.kind ∈ kinds → Explained rec R Q (accept kinds >>= f) c)
    (hnone : c.isAt kinds = false → Explained rec R Q (f none) c) :
    Explained rec R Q (accept kinds >>= f) c := by
  by_cases h : c.isAt kinds = true
  · obtain ⟨t, ht, hc⟩ := Cursor.exists_passes_of_isAt h
    exact hsome hc ht
  · rw [Bool.not_eq_true] at h
    refine (hnone h).congr fun c' hc' => ?_
    rw [← hc'.isAt_eq] at h
    rw [bind_apply_of_ok (accept_of_isAt_eq_false h)]
    rfl

/-- What is read behind the token must not depend on where it stands. -/
theorem Explained.accept_bind {f : Option Site → Parse α} {g : Token → Parse α}
    {kinds : List TokenKind} (hg : ∀ s, f (some s) = g s.token)
    (hsome : ∀ {t d}, c.Passes [t] d → t.kind ∈ kinds →
      Explained rec (fun k us => R k (t :: us)) Q (g t) d)
    (hnone : c.isAt kinds = false → Explained rec R Q (f none) c) :
    Explained rec R Q (accept kinds >>= f) c := by
  refine .accept_cases (fun hc ht => .step hc (hsome hc ht) fun c' d' hc' => ?_) hnone
  rw [bind_apply_of_ok (accept_of_passes hc' ht), hg]
  rfl

theorem Explained.expect_bind {f : Token → Parse α} {kind : TokenKind} {message : String}
    (hR : Begins R (.expectedToken kind.text message) [])
    (hf : ∀ {t d}, c.Passes [t] d → t.kind = kind →
      Explained rec (fun k us => R k (t :: us)) Q (f t) d) :
    Explained rec R Q (expect kind message >>= f) c := by
  by_cases h : c.isAt [kind] = true
  · obtain ⟨t, ht, hc⟩ := Cursor.exists_passes_of_isAt h
    refine .step hc (hf hc (List.mem_singleton.1 ht)) fun c' d' hc' => ?_
    rw [bind_apply_of_ok (expect_of_passes message hc' (List.mem_singleton.1 ht))]
    rfl
  · rw [Bool.not_eq_true] at h
    have refused : Explained rec R Q (Parse.refuse (.expectedToken kind.text message)) c :=
      .refuse rfl hR
    refine refused.congr fun c' hc' => ?_
    rw [← hc'.isAt_eq] at h
    rw [bind_apply_of_error (expect_of_isAt_eq_false message h)]
    rfl

/-- The token `t` is passed, and after the production it is noted to be misplaced.  Only here
does it matter where a token stands. -/
theorem Explained.step_keeping {q : Parse β} {R' : Nat → List Token → β → List Token → Prop}
    {Q' : β → Cursor → Prop} {t : Token} {b : β} (hc : c.Passes [t] d) (h : Explained rec R Q p d)
    (hR : ∀ {k us a bad}, R k us a bad → R' k (t :: us) b (bad ++ [t]))
    (hQ : ∀ {a e}, Q a e → Q' b e)
    (hq : ∀ c' d' : Cursor, c'.Passes [t] d' →
      q c' = (p >>= fun _ => keeping b ⟨t, c'.index⟩) d') : Explained rec R' Q' q c := by
  obtain @⟨ts, d₁, e, hd, ha, h⟩ := h
  have hbegins {cause : Cause} (h : Begins R cause ts) : Begins R' cause (t :: ts) :=
    h.trans fun h => completable_of (hR h)
  have first (c' e' : Cursor) (hc' : c'.Passes (t :: ts) e') (he' : e'.LooksLike d₁) :
      ∃ d', e.Of p d' e' ∧ q c' = (p >>= fun _ => keeping b ⟨t, c'.index⟩) d' := by
    obtain ⟨d', hcd', hde'⟩ := Cursor.passes_cons_iff.1 hc'
    exact ⟨d', h d' e' hde' he', hq c' d' hcd'⟩
  cases e with
  | value a bad =>
    refine .mk (e := .value b (bad ++ [t])) (hc.append hd) ⟨hR ha.1, hQ ha.2⟩
      fun c' e' hc' he' => ?_
    obtain ⟨d', hp, hrun⟩ := first c' e' hc' he'
    unfold Ending.Of Yields
    rw [hrun]
    exact Yields.bind hp (yields_keeping b ⟨t, c'.index⟩ e')
  | fault cause bad =>
    refine .mk (e := .fault cause bad) (hc.append hd) ⟨ha.1, hbegins ha.2⟩
      fun c' e' hc' he' => ?_
    obtain ⟨d', hp, hrun⟩ := first c' e' hc' he'
    unfold Ending.Of Fails
    rw [hrun]
    exact Fails.bind hp _
  | panic cause =>
    refine .mk (e := .panic cause) (hc.append hd) ⟨ha.1, ha.2.1, hbegins ha.2.2⟩
      fun c' e' hc' he' => ?_
    obtain ⟨d', hp, hrun⟩ := first c' e' hc' he'
    unfold Ending.Of
    rw [hrun]
    exact firstPanic?_bind hp _

/-! ### Repetitions -/

/-- One item, or no tokens at all. -/
inductive Optional (item : List Token → α → List Token → Prop) :
    List Token → Option α → List Token → Prop
  | none : Optional item [] none []
  | some {ts a bad} (h : item ts a bad) : Optional item ts (some a) bad

private theorem Begins.row {item : Nat → List Token → α → List Token → Prop} {cause : Cause}
    {ts : List Token} (h : Begins (fun k => Optional (item k)) cause ts) :
    Begins (fun k => Tolerant.Row (item k)) cause ts := by
  refine h.trans fun {k us o bad} h => ?_
  generalize hvs : ts ++ us = vs at h
  cases h with
  | none => exact completable_of .nil
  | some h =>
    have key := Tolerant.Row.cons h .nil
    rw [List.append_nil] at key
    exact completable_of key

/-- Items are repeated.  The invariant `I` holds between them, and `E` behind the last one. -/
theorem Explained.many {item : Nat → List Token → α → List Token → Prop} {I E : Cursor → Prop}
    {p : Parse (Option α)} (hne : ∀ {ts a bad}, item 0 ts a bad → ts ≠ [])
    (hmono : ∀ {k ts a bad}, item 0 ts a bad → item k ts a bad)
    (hp : ∀ c, I c → Explained rec (fun k => Optional (item k))
      (fun o d => (o = none → E d) ∧ (o ≠ none → I d)) p c)
    (hI : I c) : Explained rec (fun k => Tolerant.Row (item k)) (fun _ d => E d) (many p) c := by
  -- on the number of tokens that are left, since every item passes some
  induction hn : c.rest.length using Nat.strongRecOn generalizing c with
  | ind n ih =>
  obtain @⟨ts, d, e, hc, ha, h⟩ := hp c hI
  cases e with
  | fault cause bad =>
    exact .mk (e := .fault cause bad) hc ⟨ha.1, ha.2.row⟩
      fun c' d' hc' hd' => Fails.many (h c' d' hc' hd')
  | panic cause =>
    exact .mk (e := .panic cause) hc ⟨ha.1, ha.2.1, ha.2.2.row⟩
      fun c' d' hc' hd' => firstPanic?_many (h c' d' hc' hd')
  | value o bad =>
    obtain ⟨hitem, hE, hI⟩ := ha
    cases hitem with
    | none =>
      exact .mk (e := .value [] []) hc ⟨.nil, hE rfl⟩
        fun c' d' hc' hd' => Yields.many_nil (h c' d' hc' hd')
    | @some _ a _ hitem =>
      have hts : 0 < ts.length := List.length_pos_iff.2 (hne hitem)
      have hlen := hc.length_rest
      obtain @⟨us, d₁, e, hd, hb, h₁⟩ := ih d.rest.length (by omega) (hI (by simp)) rfl
      have hbegins {cause : Cause} (h : Begins (fun k => Tolerant.Row (item k)) cause us) :
          Begins (fun k => Tolerant.Row (item k)) cause (ts ++ us) := by
        refine h.trans fun h => ?_
        rw [List.append_assoc]
        exact completable_of (.cons (hmono hitem) h)
      have first (c' e' : Cursor) (hc' : c'.Passes (ts ++ us) e') (he' : e'.LooksLike d₁) :
          ∃ d', Yields p c' (some a) bad d' ∧ d'.rest.length < c'.rest.length ∧
            d'.Passes us e' := by
        obtain ⟨d', hcd', hde'⟩ := Cursor.passes_append_iff.1 hc'
        have hlen' := hcd'.length_rest
        exact ⟨d', h c' d' hcd' (hd.looksLike hde' he'), by omega, hde'⟩
      cases e with
      | value as bad' =>
        refine .mk (e := .value (a :: as) (bad ++ bad')) (hc.append hd) ⟨.cons hitem hb.1, hb.2⟩
          fun c' e' hc' he' => ?_
        obtain ⟨d', hp', hlen', hde'⟩ := first c' e' hc' he'
        exact hp'.many_cons hlen' (h₁ d' e' hde' he')
      | fault cause bad' =>
        refine .mk (e := .fault cause (bad ++ bad')) (hc.append hd)
          ⟨hb.1, hbegins hb.2⟩ fun c' e' hc' he' => ?_
        obtain ⟨d', hp', hlen', hde'⟩ := first c' e' hc' he'
        exact hp'.many_fails hlen' (h₁ d' e' hde' he')
      | panic cause =>
        refine .mk (e := .panic cause) (hc.append hd)
          ⟨hb.1, hb.2.1, hbegins hb.2.2⟩ fun c' e' hc' he' => ?_
        obtain ⟨d', hp', hlen', hde'⟩ := first c' e' hc' he'
        show (Parse.many p c').firstPanic? = _
        rw [hp'.firstPanic?_many hlen']
        exact h₁ d' e' hde' he'

/-! ### What the first panic tells -/

theorem Explained.of_firstPanic?_eq_none (h : Explained rec R Q p c)
    (hp : (p c).firstPanic? = none) : ∃ ts d a bad, c.Passes ts d ∧ R 0 ts a bad ∧ Q a d := by
  obtain @⟨ts, d, e, hc, ha, h⟩ := h
  have hrun := h c d hc (.refl d)
  cases e with
  | value a bad => exact ⟨ts, d, a, bad, hc, ha⟩
  | fault cause bad =>
    rw [Fails.firstPanic?_eq hrun ha.1] at hp
    cases hp
  | panic cause =>
    rw [show _ = _ from hrun] at hp
    cases hp

/-- A panic stands behind the beginning of tokens that are accepted, and the same panic comes
wherever the same tokens are read up to it. -/
theorem Explained.of_firstPanic?_eq_some (h : Explained rec R Q p c) {f : Fault}
    (hp : (p c).firstPanic? = some f) : ∃ ts d, c.Passes ts d ∧ f.site = d.site ∧
      Begins R f.cause ts ∧
      ∀ c' d' : Cursor, c'.Passes ts d' → d'.LooksLike d →
        (p c').firstPanic? = some ⟨f.cause, d'.site⟩ := by
  obtain @⟨ts, d, e, hc, ha, h⟩ := h
  have hrun := h c d hc (.refl d)
  cases e with
  | value a bad =>
    rw [Yields.firstPanic?_eq_none hrun] at hp
    cases hp
  | fault cause bad =>
    rw [Fails.firstPanic?_eq hrun ha.1] at hp
    cases hp
    exact ⟨ts, d, hc, rfl, ha.2, fun c' d' hc' hd' => Fails.firstPanic?_eq (h c' d' hc' hd') ha.1⟩
  | panic cause =>
    rw [show _ = _ from hrun] at hp
    cases hp
    exact ⟨ts, d, hc, rfl, ha.2.2, h⟩

end Rules

end Parse

end Lox

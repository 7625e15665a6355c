import Lox.Parser
import Lox.Proofs.Parse.Progress

/-!
# Productions with and without a state

A production of a parser changes the state, and one of `Parse` moves a cursor and leaves notes.  The
first one simulates the second one if it ends, wherever the parser stands in a stream, as the second
one says: with the same value or fault, at the same token, with the faults of the notes reported,
and with the levels closed that it has opened (`Frame.Simulates`).  The key facts: sequences, levels
and repetitions of simulating productions simulate.
-/

namespace Lox

open Parse (Forward GetsOn Repeats)

/-! ### Parsers on a stream -/

/-- What a production does not change for good. -/
structure Frame where
  stream : TokenStream
  rules : Rules
  depth : Nat

namespace Frame

/-- The parser that stands at the cursor `c`. -/
def parser (F : Frame) (c : Cursor) (errors : List Diagnostic) : Parser where
  tokens := F.stream.toList
  pos := c.index
  depth := F.depth
  errors := errors
  rules := F.rules

def deeper (F : Frame) : Frame :=
  { F with depth := F.depth + 1 }

/-- The number of levels that are left. -/
def room (F : Frame) : Nat :=
  Parse.maxNesting - F.depth

variable {α β : Type} {F : Frame}

/-- From the cursor `c` on, the parser does what the outcome says. -/
def Performs (F : Frame) (p : Parser.Run α) (c : Cursor) (o : Outcome α) : Prop :=
  ∀ errors, p.exec (F.parser c errors) =
    some (o.result.mapError Fault.diagnostic,
      F.parser o.cursor (errors ++ Note.diagnostics o.notes))

/-- Everywhere in the stream the parser does what the production says. -/
structure Simulates (F : Frame) (p : Parser.Run α) (q : Parse α) : Prop where
  forward : Forward q
  performs {c : Cursor} (hc : F.stream.cursor ≤ c) : F.Performs p c (q c)

/-! ### Sequences -/

/-- Nothing is reported. -/
theorem performs_quiet {p : Parser.Run α} {c d : Cursor} {r : Except Fault α}
    (h : ∀ errors, p.exec (F.parser c errors) =
      some (r.mapError Fault.diagnostic, F.parser d errors)) :
    F.Performs p c ⟨r, d, []⟩ := by
  intro errors
  rw [h, Note.diagnostics, Note.faults, List.filterMap_nil, List.map_nil, List.append_nil]

theorem performs_pure (a : α) (c : Cursor) : F.Performs (pure a) c ⟨.ok a, c, []⟩ :=
  performs_quiet fun errors => Parser.exec_pure a (F.parser c errors)

theorem performs_throw (f : Fault) (c : Cursor) :
    F.Performs (throw f.diagnostic : Parser.Run α) c ⟨.error f, c, []⟩ :=
  performs_quiet fun errors => Parser.exec_throw f.diagnostic (F.parser c errors)

theorem diagnostics_append (notes notes' : List Note) :
    Note.diagnostics (notes ++ notes') = Note.diagnostics notes ++ Note.diagnostics notes' := by
  rw [Note.diagnostics, Note.faults_append, List.map_append]
  rfl

theorem Performs.bind {p : Parser.Run α} {f : α → Parser.Run β} {c d : Cursor} {a : α}
    {notes : List Note} {o : Outcome β} (hp : F.Performs p c ⟨.ok a, d, notes⟩)
    (hf : F.Performs (f a) d o) :
    F.Performs (p >>= f) c ⟨o.result, o.cursor, notes ++ o.notes⟩ := by
  intro errors
  rw [Parser.exec_bind_of_ok (hp errors), hf, diagnostics_append, List.append_assoc]

/-- Behind a part that reports nothing. -/
theorem Performs.bind_quiet {p : Parser.Run α} {f : α → Parser.Run β} {c d : Cursor} {a : α}
    {o : Outcome β} (hp : F.Performs p c ⟨.ok a, d, []⟩) (hf : F.Performs (f a) d o) :
    F.Performs (p >>= f) c o :=
  hp.bind hf

theorem Performs.bind_error {p : Parser.Run α} {c d : Cursor} {e : Fault} {notes : List Note}
    (hp : F.Performs p c ⟨.error e, d, notes⟩) (f : α → Parser.Run β) :
    F.Performs (p >>= f) c ⟨.error e, d, notes⟩ :=
  fun errors => Parser.exec_bind_of_error (hp errors) f

theorem Performs.map {p : Parser.Run α} {c d : Cursor} {a : α} {notes : List Note}
    (h : F.Performs p c ⟨.ok a, d, notes⟩) (f : α → β) :
    F.Performs (f <$> p) c ⟨.ok (f a), d, notes⟩ := by
  rw [← bind_pure_comp, ← List.append_nil notes]
  refine h.bind (o := ⟨.ok (f a), d, []⟩) ?_
  exact performs_pure (f a) d

theorem simulates_pure (a : α) : F.Simulates (pure a) (pure a) :=
  ⟨Parse.forward_pure a, fun _ => performs_pure a _⟩

theorem Simulates.bind {p : Parser.Run α} {q : Parse α} {f : α → Parser.Run β} {g : α → Parse β}
    (hp : F.Simulates p q) (hf : ∀ a, F.Simulates (f a) (g a)) :
    F.Simulates (p >>= f) (q >>= g) := by
  refine ⟨hp.forward.bind fun a => (hf a).forward, fun {c} hc => ?_⟩
  have hrun := hp.performs hc
  have hle := Cursor.le_trans hc (hp.forward c)
  rcases hq : q c with ⟨e | a, d, notes⟩ <;> rw [hq] at hrun hle
  · rw [Parse.bind_apply_of_error hq]
    exact hrun.bind_error f
  · rw [Parse.bind_apply_of_ok hq]
    exact hrun.bind ((hf a).performs hle)

theorem Simulates.map {p : Parser.Run α} {q : Parse α} (h : F.Simulates p q) (f : α → β) :
    F.Simulates (f <$> p) (f <$> q) := by
  rw [← bind_pure_comp]
  exact h.bind fun a => simulates_pure (f a)

/-! ### Single tokens -/

section Tokens

variable {c : Cursor}

theorem performs_current (hc : F.stream.cursor ≤ c) :
    F.Performs Parser.current c ⟨.ok c.current, c, []⟩ :=
  performs_quiet fun _ => Parser.exec_current (TokenStream.getElem?_toList_of_le hc)

theorem performs_previous (hc : F.stream.cursor ≤ c) :
    F.Performs Parser.previous c ⟨.ok c.previous, c, []⟩ :=
  performs_quiet fun _ =>
    Parser.exec_previous (TokenStream.getElem?_toList_of_tokens hc c.getElem?_tokens_pred_index)

/-- The parser is at the end exactly at an end-of-input token, since it never gets past the first
one. -/
theorem performs_atEnd (hc : F.stream.cursor ≤ c) :
    F.Performs Parser.atEnd c ⟨.ok c.atEnd, c, []⟩ := by
  have hend : decide (c.current.kind = .eof) = c.atEnd := by
    rw [Bool.eq_iff_iff, decide_eq_true_iff]
    exact (F.stream.ended_cursor.of_le hc).current_kind_iff
  exact (performs_current hc).bind_quiet (hend ▸ performs_pure _ c)

theorem performs_advance (hc : F.stream.cursor ≤ c) :
    F.Performs Parser.advance c ⟨.ok c.advance.previous, c.advance, []⟩ := by
  refine (performs_atEnd hc).bind_quiet ?_
  cases hend : c.atEnd with
  | true =>
    have hstay : c.advance = c := by rw [Cursor.advance, List.isEmpty_iff.1 hend]
    rw [hstay]
    exact performs_previous hc
  | false =>
    have hindex : c.advance.index = c.index + 1 := by
      obtain ⟨t, rest, hrest⟩ := List.ne_nil_iff_exists_cons.1 (List.isEmpty_eq_false_iff.1 hend)
      exact (Cursor.passes_advance hrest).index
    have hstep : F.Performs
        (modify fun s => { s with pos := s.pos + 1 }) c ⟨.ok (), c.advance, []⟩ := by
      refine performs_quiet fun errors => ?_
      rw [Parser.exec_modify, parser, parser, hindex]
      rfl
    exact hstep.bind_quiet (performs_previous (Cursor.le_trans hc c.le_advance))

theorem simulates_skip {f : Parser.Run α} {q : Parse α} (h : F.Simulates f q) :
    F.Simulates (Parser.advance >>= fun _ => f) (Parse.skip >>= fun _ => q) where
  forward := Parse.forward_skip.bind fun _ => h.forward
  performs {c} hc := (performs_advance hc).bind_quiet (h.performs (Cursor.le_trans hc c.le_advance))

theorem performs_check (kind : TokenKind) (hc : F.stream.cursor ≤ c) :
    F.Performs (Parser.check kind) c ⟨.ok (c.isAt [kind]), c, []⟩ := by
  refine (performs_atEnd hc).bind_quiet ?_
  rcases hrest : c.rest with _ | ⟨t, rest⟩
  · have hat : c.isAt [kind] = false := by rw [Cursor.isAt, hrest]; rfl
    have hend : c.atEnd = true := by rw [Cursor.atEnd, hrest]; rfl
    rw [hend, hat]
    exact performs_pure false c
  · have hpass := Cursor.passes_advance hrest
    have hat : c.isAt [kind] = decide (c.current.kind = kind) := by
      rw [Bool.eq_iff_iff, hpass.isAt_iff, hpass.current_eq, List.mem_singleton,
        decide_eq_true_iff]
    rw [hpass.atEnd_eq, hat]
    exact (performs_current hc).bind_quiet (performs_pure _ c)

theorem performs_anyM_check (kinds : List TokenKind) (hc : F.stream.cursor ≤ c) :
    F.Performs (kinds.anyM Parser.check) c ⟨.ok (c.isAt kinds), c, []⟩ := by
  induction kinds with
  | nil =>
    rw [c.isAt_nil]
    exact performs_pure false c
  | cons kind kinds ih =>
    have hat : c.isAt (kind :: kinds) = (c.isAt [kind] || c.isAt kinds) :=
      @Cursor.isAt_append c [kind] kinds
    rw [List.anyM]
    refine (performs_check kind hc).bind_quiet ?_
    rw [hat]
    cases c.isAt [kind] with
    | true => exact performs_pure true c
    | false => exact ih

theorem performs_matchKinds_of_isAt {kinds : List TokenKind} (hk : c.isAt kinds = true)
    (hc : F.stream.cursor ≤ c) :
    F.Performs (Parser.matchKinds kinds) c ⟨.ok true, c.advance, []⟩ := by
  refine (performs_anyM_check kinds hc).bind_quiet ?_
  rw [hk]
  exact (performs_advance hc).bind_quiet (performs_pure true _)

theorem performs_matchKinds_of_isAt_eq_false {kinds : List TokenKind} (hk : c.isAt kinds = false)
    (hc : F.stream.cursor ≤ c) :
    F.Performs (Parser.matchKinds kinds) c ⟨.ok false, c, []⟩ := by
  refine (performs_anyM_check kinds hc).bind_quiet ?_
  rw [hk]
  exact performs_pure false c

end Tokens

theorem Simulates.matchKinds_bind {kinds : List TokenKind} {f : Bool → Parser.Run α}
    {q : Option Site → Parse α} (hforward : ∀ site, Forward (q (some site)))
    (hnone : F.Simulates (f false) (q none))
    (hsome : ∀ (site : Site) {d : Cursor}, F.stream.cursor ≤ d → d.previous = site.token →
      F.Performs (f true) d (q (some site) d)) :
    F.Simulates (Parser.matchKinds kinds >>= f) (Parse.accept kinds >>= q) where
  forward := by
    refine (Parse.forward_accept kinds).bind ?_
    rintro (_ | site)
    · exact hnone.forward
    · exact hforward site
  performs {c} hc := by
    cases hk : c.isAt kinds with
    | false =>
      rw [Parse.bind_apply_of_ok (Parse.accept_of_isAt_eq_false hk)]
      exact (performs_matchKinds_of_isAt_eq_false hk hc).bind_quiet (hnone.performs hc)
    | true =>
      obtain ⟨t, ht, hpass⟩ := Cursor.exists_passes_of_isAt hk
      rw [Parse.bind_apply_of_ok (Parse.accept_of_passes hpass ht)]
      exact (performs_matchKinds_of_isAt hk hc).bind_quiet
        (hsome ⟨t, c.index⟩ (Cursor.le_trans hc c.le_advance) hpass.previous_eq)

/-- What follows a token of one of the kinds may look at it. -/
theorem Simulates.accept_bind {kinds : List TokenKind} {f : Parser.Run α}
    {g : Token → Parser.Run α} {q : Option Site → Parse α} (hnone : F.Simulates f (q none))
    (hsome : ∀ site : Site, F.Simulates (g site.token) (q (some site))) :
    F.Simulates
      (Parser.matchKinds kinds >>= fun b => if b then Parser.previous >>= g else f)
      (Parse.accept kinds >>= q) :=
  .matchKinds_bind (fun site => (hsome site).forward) hnone fun site _ hd hprevious =>
    (performs_previous hd).bind_quiet (hprevious ▸ (hsome site).performs hd)

theorem simulates_refuse (cause : Cause) :
    F.Simulates (Parser.current >>= fun t => throw (.atToken cause t))
      (Parse.refuse cause : Parse α) where
  forward := Parse.forward_refuse cause
  performs {c} hc := (performs_current hc).bind_quiet (performs_throw ⟨cause, c.site⟩ c)

theorem simulates_expect (kind : TokenKind) (message : String) :
    F.Simulates (Parser.expect kind message) (Parse.expect kind message) where
  forward := Parse.forward_expect kind message
  performs {c} hc := by
    refine (performs_check kind hc).bind_quiet ?_
    cases hk : c.isAt [kind] with
    | false =>
      rw [Parse.expect_of_isAt_eq_false message hk]
      exact (simulates_refuse _).performs hc
    | true =>
      obtain ⟨t, ht, hpass⟩ := Cursor.exists_passes_of_isAt hk
      rw [Parse.expect_of_passes message hpass (List.mem_singleton.1 ht)]
      exact hpass.previous_eq ▸ performs_advance hc

/-! ### Errors -/

theorem performs_report (f : Fault) (c : Cursor) :
    F.Performs (Parser.report f.diagnostic) c ⟨.ok (), c, [.fault f]⟩ :=
  fun _ => rfl

theorem simulates_report (f : Fault) : F.Simulates (Parser.report f.diagnostic) (Parse.note f) :=
  ⟨Parse.forward_note f, fun {c} _ => performs_report f c⟩

theorem performs_attempt {p : Parser.Run α} {c d : Cursor} {r : Except Fault α} {notes : List Note}
    (h : F.Performs p c ⟨r, d, notes⟩) :
    F.Performs (Parser.attempt p) c ⟨.ok (r.mapError Fault.diagnostic), d, notes⟩ :=
  fun errors => Parser.exec_attempt (h errors)

theorem Simulates.attempt {p : Parser.Run α} {q : Parse α} (h : F.Simulates p q) :
    F.Simulates (Parser.attempt p) (Except.mapError Fault.diagnostic <$> Parse.attempt q) where
  forward := h.forward.attempt.map _
  performs {c} hc := by
    rw [Parse.map_apply]
    exact performs_attempt (h.performs hc)

theorem performs_toBoundary {passed rest : List Token} {x eof : Token}
    (hc : F.stream.cursor ≤ ⟨x :: passed, rest, eof⟩) :
    F.Performs (Parser.toBoundary Cursor.statementStarts) ⟨x :: passed, rest, eof⟩
      ⟨.ok (), Cursor.toBoundary (x :: passed) rest eof, []⟩ := by
  induction rest generalizing x passed with
  | nil =>
    rw [Parser.toBoundary]
    exact (performs_atEnd hc).bind_quiet (performs_pure () _)
  | cons t rest ih =>
    have hstep : Cursor.toBoundary (x :: passed) (t :: rest) eof =
        if x.kind = .semicolon || t.isOneOf Cursor.statementStarts then
          ⟨x :: passed, t :: rest, eof⟩
        else Cursor.toBoundary (t :: x :: passed) rest eof := rfl
    rw [Parser.toBoundary, hstep]
    refine (performs_atEnd hc).bind_quiet ((performs_previous hc).bind_quiet ?_)
    by_cases hx : x.kind = .semicolon
    · simp only [Cursor.previous, List.headD_cons, hx, if_true, decide_true, Bool.true_or]
      exact performs_pure () _
    · simp only [Cursor.previous, List.headD_cons, hx, if_false, decide_false, Bool.false_or]
      refine (performs_current hc).bind_quiet ?_
      cases ht : t.isOneOf Cursor.statementStarts with
      | true =>
        simp only [Cursor.current, List.headD_cons, ht, if_true]
        exact performs_pure () _
      | false =>
        simp only [Cursor.current, List.headD_cons, ht, Bool.false_eq_true, if_false]
        have hle := Cursor.le_trans hc (Cursor.le_advance _)
        exact (performs_advance hc).bind_quiet (ih hle)

theorem performs_synchronize {c : Cursor} (hc : F.stream.cursor ≤ c) :
    F.Performs Parser.synchronize c ⟨.ok (), c.synchronize, []⟩ := by
  have hle := Cursor.le_trans hc c.le_advance
  refine (performs_advance hc).bind_quiet ?_
  rcases hrest : c.rest with _ | ⟨t, rest⟩
  · have hstay : c.advance = c := by rw [Cursor.advance, hrest]
    have hend : c.atEnd = true := by rw [Cursor.atEnd, hrest]; rfl
    rw [hstay, Cursor.synchronize_of_atEnd hend, Parser.toBoundary]
    refine (performs_atEnd hc).bind_quiet ?_
    rw [hend]
    exact performs_pure () c
  · have hadvance : c.advance = ⟨t :: c.passed, rest, c.eof⟩ := by rw [Cursor.advance, hrest]
    have hboundary : c.synchronize = Cursor.toBoundary (t :: c.passed) rest c.eof := by
      rw [Cursor.synchronize, hrest]
    rw [hadvance] at hle ⊢
    rw [hboundary]
    exact performs_toBoundary hle

theorem simulates_synchronize : F.Simulates Parser.synchronize Parse.synchronize :=
  ⟨Parse.forward_synchronize, fun hc => performs_synchronize hc⟩

theorem Performs.attempt_bind {p : Parser.Run α} {k : Except Diagnostic α → Parser.Run (Option α)}
    {c d : Cursor} {a : α} {notes : List Note} (h : F.Performs p c ⟨.ok a, d, notes⟩)
    (hok : ∀ a, k (.ok a) = pure (some a)) :
    F.Performs (Parser.attempt p >>= k) c ⟨.ok (some a), d, notes⟩ := by
  have hpure : F.Performs (k (.ok a)) d ⟨.ok (some a), d, []⟩ := by
    rw [hok]
    exact performs_pure (some a) d
  rw [← List.append_nil notes]
  exact (performs_attempt h).bind hpure

/-- An error is reported, and nothing is read. -/
theorem Simulates.noting {p : Parser.Run α} {q : Parse α}
    {k : Except Diagnostic α → Parser.Run (Option α)} (h : F.Simulates p q)
    (hok : ∀ a, k (.ok a) = pure (some a))
    (herror : ∀ d, k (.error d) = Parser.report d >>= fun _ => pure none) :
    F.Simulates (Parser.attempt p >>= k) (Parse.noting q) where
  forward := h.forward.noting
  performs {c} hc := by
    have hrun := h.performs hc
    rcases hq : q c with ⟨f | a, d, notes⟩ <;> rw [hq] at hrun
    · have hreport : F.Performs (k (.error f.diagnostic)) d ⟨.ok none, d, [.fault f]⟩ := by
        rw [herror]
        exact (performs_report f d).bind (o := ⟨.ok none, d, []⟩) (performs_pure none d)
      rw [Parse.noting_of_error hq]
      exact (performs_attempt hrun).bind hreport
    · rw [Parse.noting_of_ok hq]
      exact hrun.attempt_bind hok

/-- And the parser goes on to the next statement boundary. -/
theorem Simulates.recovering {p : Parser.Run Stmt} {q : Parse Stmt}
    {k : Except Diagnostic Stmt → Parser.Run (Option Stmt)} (h : F.Simulates p q)
    (hok : ∀ stmt, k (.ok stmt) = pure (some stmt))
    (herror : ∀ d, k (.error d) =
      Parser.report d >>= fun _ => Parser.synchronize >>= fun _ => pure none) :
    F.Simulates (Parser.attempt p >>= k) (Parse.recovering q) where
  forward := by
    refine h.forward.noting.bind ?_
    rintro (_ | stmt)
    · exact Parse.forward_synchronize.bind fun _ => Parse.forward_pure none
    · exact Parse.forward_pure (some stmt)
  performs {c} hc := by
    have hrun := h.performs hc
    have hle := Cursor.le_trans hc (h.forward c)
    rcases hq : q c with ⟨f | a, d, notes⟩ <;> rw [hq] at hrun hle
    · have hboundary : F.Simulates (Parser.synchronize >>= fun _ => pure (none : Option Stmt))
          (Parse.synchronize >>= fun _ => pure none) :=
        simulates_synchronize.bind fun _ => simulates_pure none
      have hreport := (performs_report f d).bind (f := fun _ => _) (hboundary.performs hle)
      rw [← herror] at hreport
      rw [Parse.recovering_of_error hq]
      exact (performs_attempt hrun).bind hreport
    · rw [Parse.recovering_of_ok hq]
      exact hrun.attempt_bind hok

/-! ### Levels -/

theorem room_eq_zero : F.room = 0 ↔ Parse.maxNesting ≤ F.depth :=
  Nat.sub_eq_zero_iff_le

theorem room_deeper : F.deeper.room = F.room - 1 :=
  Nat.sub_add_eq ..

/-- The level is closed again, also behind a fault. -/
theorem Simulates.nested {p : Parser.Run α} {deeper : Option β} {q : β → Parse α}
    (hnone : deeper = none → F.room = 0)
    (hsome : ∀ inner ∈ deeper, F.room ≠ 0 ∧ F.deeper.Simulates p (q inner)) :
    F.Simulates (Parser.nested p) (Parse.nested deeper q) := by
  refine ⟨Parse.Forward.nested fun inner hi => (hsome inner hi).2.forward, fun {c} hc => ?_⟩
  cases deeper with
  | none =>
    refine performs_quiet fun errors => ?_
    exact Parser.exec_nested_of_le (room_eq_zero.1 (hnone rfl))
      (TokenStream.getElem?_toList_of_le hc)
  | some inner =>
    obtain ⟨hroom, h⟩ := hsome inner rfl
    have hlt : F.depth < Parse.maxNesting := by rwa [ne_eq, room_eq_zero, Nat.not_le] at hroom
    intro errors
    have hrun := Parser.exec_nested_of_lt (s := F.parser c errors) hlt (h.performs hc errors) rfl
    exact hrun

theorem Simulates.within {p : Parser.Run α} {q : (room : Nat) → Parse α} (levels : Nat)
    (h : ∀ depth, { F with depth }.Simulates p (q (Parse.maxNesting - depth))) :
    F.Simulates (Parser.within levels p) (Parse.within q levels F.room) := by
  induction levels generalizing F with
  | zero => exact h F.depth
  | succ levels ih =>
    have hinner : F.deeper.Simulates (Parser.within levels p)
        (Parse.within q levels F.deeper.room) := ih h
    cases hroom : F.room with
    | zero =>
      have hnested : F.Simulates (Parser.within (levels + 1) p)
          (Parse.nested (none : Option Unit) fun _ => Parse.refuse .tooDeeplyNested) :=
        .nested (fun _ => hroom) (by simp)
      exact hnested
    | succ room =>
      rw [room_deeper, hroom] at hinner
      have hnested : F.Simulates (Parser.within (levels + 1) p)
          (Parse.nested (some ()) fun _ => Parse.within q levels room) :=
        .nested (by simp) fun _ _ => ⟨by omega, hinner⟩
      exact hnested

/-! ### Repetitions -/

/-- A repetition that adds what its rounds give to what it has. -/
theorem Simulates.loop {σ : Type} {step : Parser.Run (Option α)} {q : Parse (Option α)}
    {loop : σ → Parser.Run σ} {f : σ → α → σ}
    (hloop : ∀ b, loop b = step >>= fun o => o.elim (pure b) fun a => loop (f b a))
    (h : F.Simulates step q) (hq : GetsOn q) (b : σ) :
    F.Simulates (loop b) (Parse.many q >>= fun as => pure (as.foldl f b)) := by
  have key {n : Nat} {c : Cursor} {o : Outcome (List α)} (ho : Repeats q n c o) (b : σ)
      (hc : F.stream.cursor ≤ c) :
      F.Performs (loop b) c ⟨o.result.map (·.foldl f b), o.cursor, o.notes⟩ := by
    induction ho generalizing b with
    | @none c d notes hq =>
      have hrun := h.performs hc
      rw [hq] at hrun
      rw [hloop, ← List.append_nil notes]
      exact hrun.bind (o := ⟨.ok b, d, []⟩) (performs_pure b d)
    | error hq =>
      have hrun := h.performs hc
      rw [hq] at hrun
      rw [hloop]
      exact hrun.bind_error _
    | @some n c d a notes o hq ho ih =>
      have hrun := h.performs hc
      have hle := Cursor.le_trans hc (h.forward c)
      rw [hq] at hrun hle
      have hmap : (o.result.map (a :: ·)).map (·.foldl f b) = o.result.map (·.foldl f (f b a)) := by
        cases o.result <;> rfl
      rw [hloop, hmap]
      exact hrun.bind (o := ⟨_, o.cursor, o.notes⟩) (ih (f b a) hle)
  refine ⟨h.forward.many.bind fun _ => Parse.forward_pure _, fun {c} hc => ?_⟩
  obtain ⟨n, -, ho⟩ := Parse.repeats_many hq c
  have hrun := key ho b hc
  rw [← Parse.map_apply (Parse.many q) (·.foldl f b) c] at hrun
  exact hrun

end Frame

end Lox

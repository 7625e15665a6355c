import Mathlib.Data.List.ReduceOption
import Lox.Parse.Forward
import Lox.Proofs.Parse.Operators

/-!
# Declarations by their first token

With the standard rules the kind of the first token decides which production reads a declaration
(`declaration_apply`); with any rules it is a statement with recovery
(`declaration_eq_recovering_declared`).  Blocks and programs repeat declarations, up to a closing
brace or to the end of the stream.
-/

namespace Lox

namespace Parse

theorem here_bind_apply {α : Type} (f : Token → Parse α) (c : Cursor) :
    (here >>= f) c = f c.current c := rfl

/-- The rule of a declaration that starts with a token of the kind. -/
def leadingRule (k : TokenKind) : StatementRule :=
  ((Rules.standard .declarations k).or (Rules.standard .statements k)).getD .statement

/-- The production of a declaration that starts with a token of the kind, without recovery. -/
def leading (room : Nat) (k : TokenKind) : Parse Stmt :=
  ruledWith (expression room .assignment) (deeperDeclaration .standard room) (leadingRule k)

theorem noting_of_ok {α : Type} {p : Parse α} {c d : Cursor} {a : α} {notes : List Note}
    (h : p c = ⟨.ok a, d, notes⟩) : noting p c = ⟨.ok (some a), d, notes⟩ := by
  have attempted : attempt p c = ⟨.ok (.ok a), d, notes⟩ := by rw [attempt, h]
  have key : noting p c = ⟨.ok (some a), d, notes ++ []⟩ := bind_apply_of_ok attempted
  rwa [List.append_nil] at key

/-- The fault is noted behind what was noted before. -/
theorem noting_of_error {α : Type} {p : Parse α} {c d : Cursor} {f : Fault} {notes : List Note}
    (h : p c = ⟨.error f, d, notes⟩) : noting p c = ⟨.ok none, d, notes ++ [.fault f]⟩ := by
  have attempted : attempt p c = ⟨.ok (.error f), d, notes⟩ := by rw [attempt, h]
  exact bind_apply_of_ok attempted

/-- After a fault the statement is missing, and the cursor is at the next statement boundary. -/
def recovering (p : Parse Stmt) : Parse (Option Stmt) := do
  match ← noting p with
  | some stmt => return some stmt
  | none => do
    synchronize
    return none

theorem recovering_of_ok {p : Parse Stmt} {c d : Cursor} {s : Stmt} {notes : List Note}
    (h : p c = ⟨.ok s, d, notes⟩) : recovering p c = ⟨.ok (some s), d, notes⟩ := by
  have key : recovering p c = ⟨.ok (some s), d, notes ++ []⟩ := bind_apply_of_ok (noting_of_ok h)
  rwa [List.append_nil] at key

/-- The fault is noted, and the cursor goes to the next boundary. -/
theorem recovering_of_error {p : Parse Stmt} {c d : Cursor} {f : Fault} {notes : List Note}
    (h : p c = ⟨.error f, d, notes⟩) :
    recovering p c = ⟨.ok none, d.synchronize,
      notes ++ [.fault f, .synchronized d.index d.synchronize.index d.synchronize.current.line]⟩ := by
  have key := bind_apply_of_ok (f := fun o => match o with
    | some stmt => pure (some stmt)
    | none => synchronize >>= fun _ => pure none) (noting_of_error h)
  rw [List.append_assoc] at key
  exact key

theorem Yields.recovering {p : Parse Stmt} {c d : Cursor} {s : Stmt}
    {bad : List Token} (h : Yields p c s bad d) :
    Yields (recovering p) c (some s) bad d := by
  obtain ⟨notes, hn, hc⟩ := h
  exact ⟨notes, hn, recovering_of_ok hc⟩

theorem firstPanic?_recovering {p : Parse Stmt} {c : Cursor} {f : Fault}
    (h : (p c).firstPanic? = some f) : (recovering p c).firstPanic? = some f := by
  rcases hc : p c with ⟨e | s, d, notes⟩ <;> rw [hc] at h
  · rw [recovering_of_error hc, ← h]
    simp only [Outcome.firstPanic?, Note.firstPanic?_append, Option.or_none]
    congr 1
    cases he : e.cause.isPanic <;> simp [Note.firstPanic?, Note.faults, Note.fault?, he]
  · rw [recovering_of_ok hc]
    exact h

private theorem recovering_congr {p q : Parse Stmt} {c : Cursor} (h : p c = q c) :
    recovering p c = recovering q c := by
  have key : noting p c = noting q c := by
    simp only [noting, bind, Parse.bind, attempt, h]
  simp only [recovering, bind, Parse.bind, key]

/-- What the tables have for a declaration, without recovery. -/
def declared (rules : Rules) (room : Nat) : Parse Stmt :=
  here >>= fun token => statement rules room ((rules .declarations token.kind).getD .statement)

theorem declaration_eq_recovering_declared (rules : Rules) (room : Nat) :
    declaration rules room = recovering (declared rules room) := by
  funext c
  rw [declaration_eq, declarationWith, here_bind_apply]
  exact recovering_congr rfl

theorem declaration_apply (room : Nat) (c : Cursor) :
    declaration .standard room c = recovering (leading room c.current.kind) c := by
  rw [declaration_eq, expression_default, declarationWith, here_bind_apply]
  apply recovering_congr
  by_cases hv : c.current.kind = .kwVar
  · rw [hv]
    rfl
  · have hd : Rules.standard .declarations c.current.kind = none := by
      revert hv
      cases c.current.kind <;> simp [Rules.standard]
    simp only [leading, leadingRule, hd, Option.none_or, Option.getD_none, ruleWith]
    rw [statementWith, here_bind_apply]

theorem declaration_eq_recovering (room : Nat) :
    declaration .standard room = here >>= fun token => recovering (leading room token.kind) := by
  funext c
  rw [declaration_apply, here_bind_apply]

/-! ### The productions -/

theorem leading_of_not_mem (room : Nat) {k : TokenKind} (hk : k ∉ Tolerant.statementKinds) :
    leading room k =
      expression room .assignment >>= fun e =>
        expect .semicolon "Expect ';' after expression." >>= fun _ => pure (.expression e) := by
  have hr : leadingRule k = .statement := by
    revert hk
    cases k <;> decide
  rw [leading, hr]
  rfl

theorem leading_kwPrint (room : Nat) :
    leading room .kwPrint =
      skip >>= fun _ => expression room .assignment >>= fun e =>
        expect .semicolon "Expect ';' after value." >>= fun _ => pure (.print e) :=
  rfl

theorem leading_kwVar (room : Nat) :
    leading room .kwVar =
      skip >>= fun _ => expect .identifier "Expect variable name." >>= fun name =>
        initializerWith (expression room .assignment) >>= fun initializer =>
          expect .semicolon "Expect ';' after variable declaration." >>= fun _ =>
            pure (.varDecl name initializer) :=
  rfl

/-! ### Repetitions of declarations -/

/-- A round of a repetition that ends at the cursors `stop`. -/
def upTo {α : Type} (stop : Cursor → Bool) (p : Parse α) : Parse (Option α) :=
  fun c => if stop c then ⟨.ok none, c, []⟩ else (some <$> p) c

theorem forward_upTo {α : Type} (stop : Cursor → Bool) {p : Parse α} (hp : Forward p) :
    Forward (upTo stop p) := by
  intro c
  unfold upTo
  split
  · exact c.le_refl
  · exact hp.map some c

/-- An item of a repetition of declarations, which ends at the cursors `stop`. -/
def item (stop : Cursor → Bool) (room : Nat) : Parse (Option (Option Stmt)) :=
  fun c => if stop c then ⟨.ok none, c, []⟩ else (some <$> declaration .standard room) c

theorem item_apply {room : Nat} {stop : Cursor → Bool} {c d : Cursor} {o : Option Stmt} {notes : List Note}
    (hstop : stop c = false) (h : declaration .standard room c = ⟨.ok o, d, notes⟩) :
    item stop room c = ⟨.ok (some o), d, notes⟩ := by
  have key := bind_apply_of_ok (f := fun o => pure (some o)) h
  rw [pure_apply, List.append_nil] at key
  rw [item, hstop]
  exact key

theorem forward_item (stop : Cursor → Bool) (room : Nat) : Forward (item stop room) :=
  forward_upTo stop (forward_declaration .standard room)

theorem cursor_item {room : Nat} {stop : Cursor → Bool} {c : Cursor} (hstop : stop c = false) :
    (item stop room c).cursor = (declaration .standard room c).cursor := by
  unfold item
  rw [hstop]
  show ((declaration .standard room >>= fun s => pure (some s) : Parse _) c).cursor = _
  rcases hrun : declaration .standard room c with ⟨f | s, d, notes⟩
  · rw [bind_apply_of_error hrun]
  · rw [bind_apply_of_ok hrun, pure_apply]

/-- An item that ends with a value is the end of the repetition or a declaration. -/
theorem eq_or_exists_of_item_eq_ok {room : Nat} {stop : Cursor → Bool} {c d : Cursor}
    {o : Option (Option Stmt)} {notes : List Note} (h : item stop room c = ⟨.ok o, d, notes⟩) :
    (o = none ∧ d = c ∧ notes = []) ∨
      ∃ a, o = some a ∧ stop c = false ∧ declaration .standard room c = ⟨.ok a, d, notes⟩ := by
  cases hstop : stop c with
  | true =>
    rw [item, if_pos hstop] at h
    cases h
    exact .inl ⟨rfl, rfl, rfl⟩
  | false =>
    rcases hdecl : declaration .standard room c with ⟨f | a, e, n⟩
    · have key : item stop room c = ⟨.error f, e, n⟩ := by
        rw [item, hstop]
        exact bind_apply_of_error hdecl
      rw [key] at h
      cases h
    · rw [item_apply hstop hdecl] at h
      cases h
      exact .inr ⟨a, rfl, rfl, rfl⟩

theorem many_item_of_stop {room : Nat} {stop : Cursor → Bool} {c : Cursor} (hstop : stop c = true) :
    many (item stop room) c = ⟨.ok [], c, []⟩ := by
  rw [many, item, hstop]
  rfl

theorem reduceOption_map_some (body : List Stmt) : (body.map some).reduceOption = body := by
  induction body with
  | nil => rfl
  | cons s body ih => rw [List.map_cons, List.reduceOption_cons_of_some, ih]

/-- Where the declarations of a block end. -/
def blockEnd (c : Cursor) : Bool :=
  c.isAt [.closeCurly] || c.atEnd

/-- A repetition of declarations ends at tokens of the kinds and at the end of the stream. -/
structure Stops (stop : Cursor → Bool) (kinds : List TokenKind) : Prop where
  iff : ∀ {c : Cursor}, stop c = true ↔ c.isAt kinds = true ∨ c.atEnd = true
  subset : kinds ⊆ [.closeCurly]

theorem stops_blockEnd : Stops blockEnd [.closeCurly] where
  iff := Bool.or_eq_true_iff
  subset := List.Subset.refl _

theorem stops_atEnd : Stops Cursor.atEnd [] where
  iff {c} := by simp [c.isAt_nil]
  subset := List.nil_subset _

theorem Stops.looksLike {stop : Cursor → Bool} {kinds : List TokenKind} (hs : Stops stop kinds)
    {c d : Cursor} (h : c.LooksLike d) : stop c = stop d := by
  rw [Bool.eq_iff_iff, hs.iff, hs.iff, h.isAt_eq, h.2]

theorem Stops.isAt_eq_false {stop : Cursor → Bool} {kinds : List TokenKind} (hs : Stops stop kinds)
    {c : Cursor} (h : stop c = false) : c.isAt kinds = false := by
  by_contra hk
  rw [hs.iff.2 (.inl (by simpa using hk))] at h
  cases h

theorem Stops.eq_false_of_passes {stop : Cursor → Bool} {kinds : List TokenKind}
    (hs : Stops stop kinds) {c d : Cursor} {t : Token} (h : c.Passes [t] d) (ht : t.kind ∉ kinds) :
    stop c = false := by
  rw [← Bool.not_eq_true, hs.iff, h.isAt_iff, h.atEnd_eq]
  simp [ht]

theorem upTo_blockEnd {α : Type} (p : Parse α) :
    upTo blockEnd p =
      isAt [.closeCurly] >>= fun a => atEnd >>= fun b =>
        if a || b then pure none else p >>= fun s => pure (some s) := by
  funext c
  show _ = (if c.isAt [.closeCurly] || c.atEnd then pure none else some <$> p : Parse _) c
  unfold upTo blockEnd
  split <;> rfl

theorem upTo_atEnd {α : Type} (p : Parse α) :
    upTo Cursor.atEnd p =
      atEnd >>= fun b => if b then pure none else p >>= fun s => pure (some s) := by
  funext c
  show _ = (if c.atEnd then pure none else some <$> p : Parse _) c
  unfold upTo
  split <;> rfl

theorem item_blockEnd (room : Nat) :
    item blockEnd room =
      isAt [.closeCurly] >>= fun a => atEnd >>= fun b =>
        if a || b then pure none else declaration .standard room >>= fun s => pure (some s) :=
  upTo_blockEnd (declaration .standard room)

theorem item_atEnd (room : Nat) :
    item Cursor.atEnd room =
      atEnd >>= fun b =>
        if b then pure none else declaration .standard room >>= fun s => pure (some s) :=
  upTo_atEnd (declaration .standard room)

theorem leading_openCurly (room : Nat) :
    leading (room + 1) .openCurly =
      skip >>= fun _ => many (item blockEnd room) >>= fun body =>
        expect .closeCurly "Expect '\x7d' after block." >>= fun _ =>
          pure (.block body.reduceOption) := by
  rw [item_blockEnd]
  rfl

theorem program_eq (room : Nat) :
    program .standard room =
      many (item Cursor.atEnd room) >>= fun body => pure body.reduceOption := by
  rw [item_atEnd]
  rfl

end Parse

end Lox

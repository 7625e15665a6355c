import Lox.Proofs.Parse.Dispatch

/-!
# What the tolerant grammar derives is read

If tokens derive a tree, then the production reads exactly these tokens and yields this tree,
provided that no token follows that goes on the expression (`yields_expression`).  A
declaration ends with a token of its own, so nothing is asked of what follows it
(`yields_declaration`).
-/

namespace Lox

namespace Parse

/-! ### Left association -/

section LeftAssoc

variable {operators : List TokenKind} {operand : Parse Expr} {c d : Cursor}

theorem yields_operation {d₁ : Cursor} {o : Token} {e : Expr} {bad : List Token}
    (ho : o.kind ∈ operators) (hc : c.Passes [o] d₁) (h : Yields operand d₁ e bad d) :
    Yields (operation operators operand) c (some (o, e)) bad d := by
  unfold operation
  exact (yields_accept_some hc ho).bind (h.bind_pure rfl)

theorem yields_operation_none (h : c.isAt operators = false) :
    Yields (operation operators operand) c none [] c :=
  (yields_accept_none h).bind (yields_pure none c)

end LeftAssoc

end Parse

/-! ### Expressions -/

section Expression

open Parse

variable {room : Nat} {p : Precedence} {ts : List Token} {e : Expr} {bad : List Token}

/-- The production reads the tokens if nothing follows that goes on the expression. -/
private def Completes (room : Nat) (p : Precedence) (ts : List Token) (e : Expr)
    (bad : List Token) : Prop :=
  ∀ c d : Cursor, c.Passes ts d → d.isAt p.joining = false → Yields (expression room p) c e bad d

/-- The tokens are read as the left operand of whatever operations follow. -/
private def CompletesLeft (room : Nat) (p : Precedence) (ts : List Token) (e : Expr)
    (bad : List Token) : Prop :=
  ∀ (c d d' : Cursor) (more : List (Token × Expr)) (bad' : List Token), c.Passes ts d →
    d.isAt p.next.joining = false →
    Yields (many (operation p.operators (expression room p.next))) d more bad' d' →
    Yields (leftAssoc p.operators (expression room p.next)) c (more.foldl joinLeft e)
      (bad ++ bad') d'

private theorem Completes.left (h : Completes room p.next ts e bad) :
    CompletesLeft room p ts e bad := by
  intro c d d' more bad' hc hd hm
  rw [leftAssoc_eq]
  exact (h c d hc hd).bind (hm.bind_pure rfl)

private theorem CompletesLeft.binary {o : Token} {us : List Token} {r : Expr} {bad' : List Token}
    (hl : CompletesLeft room p ts e bad) (ho : o.kind ∈ p.operators)
    (hr : Completes room p.next us r bad') :
    CompletesLeft room p (ts ++ o :: us) (.binary e o r) (bad ++ bad') := by
  intro c d d' more bad'' hc hd hm
  obtain ⟨c₁, hc₁, hc₁d⟩ := Cursor.passes_append_iff.1 hc
  obtain ⟨c₂, hc₂, hc₂d⟩ := Cursor.passes_cons_iff.1 hc₁d
  have hop : Yields (operation p.operators (expression room p.next)) c₁ (some (o, r)) bad' d :=
    yields_operation ho hc₂ (hr c₂ d hc₂d hd)
  have hlen : d.rest.length < c₁.rest.length := by
    have := hc₁d.length_rest
    simp only [List.length_cons] at this
    omega
  -- the operation is the first of those that follow the left operand
  have key := hl c c₁ d' _ _ hc₁ (hc₂.isAt_eq_false (Precedence.not_mem_joining_next ho))
    (hop.many_cons hlen hm)
  rwa [← List.append_assoc] at key

private theorem CompletesLeft.completes (h : CompletesLeft room p ts e bad)
    (hp : p.operators ≠ []) : Completes room p ts e bad := by
  intro c d hc hd
  rw [Cursor.isAt_joining_eq_false_iff hp] at hd
  have key := h c d d _ _ hc hd.2 (yields_operation_none hd.1).many_nil
  rw [List.append_nil] at key
  rw [expression_of_operators room hp]
  exact key

/-- A token that is an operand by itself. -/
private theorem completes_singleton {t : Token}
    (h : ∀ deeper, primaryAt deeper t = skip >>= fun _ => pure e) :
    Completes room .primary [t] e [] := by
  intro c d hc _
  rw [expression_primary]
  refine (yields_here c).bind ?_
  rw [hc.current_eq, h]
  exact (yields_skip hc).bind_pure rfl

private theorem Completes.grouping {o cl : Token} (ho : o.kind = .openParen)
    (hl : o.literal = none) (h : Completes room .assignment ts e bad)
    (hcl : cl.kind = .closeParen) :
    Completes (room + 1) .primary (o :: ts ++ [cl]) (.grouping e) bad := by
  intro c d hc _
  obtain ⟨c₁, hc₁, hc₁d⟩ := Cursor.passes_cons_iff.1 hc
  obtain ⟨c₂, hc₂, hc₂d⟩ := Cursor.passes_append_iff.1 hc₁d
  have hend : c₂.isAt Precedence.assignment.joining = false :=
    hc₂d.isAt_eq_false (by rw [hcl]; decide)
  rw [expression_primary]
  refine (yields_here c).bind ?_
  rw [hc₁.current_eq, primaryAt, ho, hl]
  show Yields (groupingWith (deeper (room + 1))) c (.grouping e) bad d
  rw [grouping_succ]
  exact (yields_skip hc₁).bind <| (h c₁ c₂ hc₂ hend).bind_nil <|
    (yields_expect _ hc₂d hcl).bind_pure rfl

private theorem Completes.operand (h : Completes room .primary ts e bad) (hne : ts ≠ [])
    (hn : Tolerant.HeadNotIn Tolerant.prefixOperators ts) : Completes room .unary ts e bad := by
  intro c d hc hd
  obtain ⟨t, us, rfl⟩ := List.exists_cons_of_ne_nil hne
  obtain ⟨c₁, hc₁, -⟩ := Cursor.passes_cons_iff.1 hc
  have hstart : c.isAt [.not, .dash] = false :=
    hc₁.isAt_eq_false (Tolerant.headNotIn_cons.1 hn)
  rw [expression_unary]
  exact (yields_accept_none hstart).bind (h c d hc hd)

private theorem Completes.unary {o : Token} (ho : o.kind ∈ Tolerant.prefixOperators)
    (h : Completes room .unary ts e bad) :
    Completes (room + 1) .unary (o :: ts) (.unary o e) bad := by
  intro c d hc hd
  obtain ⟨c₁, hc₁, hc₁d⟩ := Cursor.passes_cons_iff.1 hc
  rw [expression_unary]
  exact (yields_accept_some hc₁ ho).bind <| Yields.bind_pure (h c₁ d hc₁d hd) rfl

/-- The production behind an equals sign, for the target `e`. -/
private theorem Completes.assignment {q : Token} {us : List Token} {v e' : Expr}
    {bad' bad'' : List Token} (ht : Completes (room + 1) .equality ts e bad)
    (hq : q.kind = .assignment) (hv : Completes room .assignment us v bad')
    (hend : ∀ (s : Site) (d : Cursor), s.token = q → Yields (assigning e s v) d e' bad'' d) :
    Completes (room + 1) .assignment (ts ++ q :: us) e' (bad ++ bad' ++ bad'') := by
  intro c d hc hd
  obtain ⟨c₁, hc₁, hc₁d⟩ := Cursor.passes_append_iff.1 hc
  obtain ⟨c₂, hc₂, hc₂d⟩ := Cursor.passes_cons_iff.1 hc₁d
  have hjoin : c₁.isAt Precedence.equality.joining = false :=
    hc₂.isAt_eq_false (by rw [hq]; decide)
  rw [expression_assignment, assigned, List.append_assoc]
  exact (ht c c₁ hc₁ hjoin).bind <| (yields_accept_some hc₂ (by simp [hq])).bind <|
    Yields.bind (hv c₂ d hc₂d hd) (hend _ d rfl)

private theorem completes_next (hp : p ∉ [Precedence.unary, .primary])
    (h : Completes room p.next ts e bad) : Completes room p ts e bad := by
  by_cases hop : p.operators = []
  · intro c d hc hd
    have hend := Cursor.isAt_eq_false_of_subset hd p.joining_next_subset
    have key := h c d hc hend
    cases p with
    | default => rwa [expression_default]
    | assignment =>
      rw [expression_assignment, assigned]
      have hq : d.isAt [.assignment] = false := Cursor.isAt_eq_false_of_subset hd (by decide)
      exact key.bind_nil <| (yields_accept_none hq).bind (yields_pure e d)
    | equality | comparison | term | factor => cases hop
    | unary | primary => simp at hp
  · exact h.left.completes hop

/-- The two parts go together: the rule for operators is left recursive, the parser repeats. -/
private theorem completes_and_left (h : Tolerant.Derives room p ts e bad) :
    Completes room p ts e bad ∧ (p.operators ≠ [] → CompletesLeft room p ts e bad) := by
  induction h with
  | literal h =>
    exact ⟨completes_singleton fun _ => by rw [primaryAt, h], by simp [Precedence.operators]⟩
  | false h hl =>
    exact ⟨completes_singleton fun _ => by rw [primaryAt, hl, h], by simp [Precedence.operators]⟩
  | true h hl =>
    exact ⟨completes_singleton fun _ => by rw [primaryAt, hl, h], by simp [Precedence.operators]⟩
  | nil h hl =>
    exact ⟨completes_singleton fun _ => by rw [primaryAt, hl, h], by simp [Precedence.operators]⟩
  | var h hl =>
    exact ⟨completes_singleton fun _ => by rw [primaryAt, hl, h], by simp [Precedence.operators]⟩
  | grouping ho hl _ hcl ih =>
    exact ⟨.grouping ho hl ih.1 hcl, by simp [Precedence.operators]⟩
  | operand h hn ih =>
    exact ⟨ih.1.operand h.ne_nil hn, by simp [Precedence.operators]⟩
  | unary ho _ ih =>
    exact ⟨.unary ho ih.1, by simp [Precedence.operators]⟩
  | @binary _ p _ _ _ _ _ _ _ _ ho _ ihl ihr =>
    have hp : p.operators ≠ [] := List.ne_nil_of_mem ho
    have left := (ihl.2 hp).binary ho ihr.1
    exact ⟨left.completes hp, fun _ => left⟩
  | assign _ hq _ iht ihv =>
    refine ⟨?_, by simp [Precedence.operators]⟩
    have key := iht.1.assignment hq ihv.1 fun _ d _ => yields_pure _ d
    rwa [List.append_nil] at key
  | misplaced _ he hq _ iht ihv =>
    refine ⟨iht.1.assignment hq ihv.1 ?_, by simp [Precedence.operators]⟩
    rintro s d rfl
    unfold assigning
    split
    · exact absurd rfl (he _)
    · exact yields_keeping _ s d
  | next hp _ ih =>
    exact ⟨completes_next hp ih.1, fun _ => ih.1.left⟩

/-- Derived tokens are read if nothing follows that goes on the expression. -/
theorem Parse.yields_expression {c d : Cursor} (h : Tolerant.Derives room p ts e bad)
    (hc : c.Passes ts d) (hd : d.isAt p.joining = false) :
    Yields (expression room p) c e bad d :=
  (completes_and_left h).1 c d hc hd

end Expression

/-! ### Declarations -/

namespace Parse

variable {room : Nat} {ts : List Token} {s : Stmt} {bad : List Token} {c d : Cursor}

theorem yields_item {stop : Cursor → Bool} (hc : stop c = false)
    (h : Yields (declaration .standard room) c (some s) bad d) :
    Yields (item stop room) c (some (some s)) bad d := by
  obtain ⟨notes, hn, hs⟩ := h.bind_pure (f := fun s => pure (some s)) rfl
  refine ⟨notes, hn, ?_⟩
  rw [item, hc]
  exact hs

theorem yields_item_none {stop : Cursor → Bool} (hc : stop c = true) :
    Yields (item stop room) c none [] c :=
  ⟨[], Note.misplaced_nil, by rw [item, hc]; rfl⟩

/-- A declaration that may stand before the end of a repetition. -/
private def CompletesDeclaration (room : Nat) : Prop :=
  ∀ (ts : List Token) (s : Stmt) (bad : List Token) (c d : Cursor),
    Tolerant.Declaration room ts s bad → c.Passes ts d →
      Yields (declaration .standard room) c (some s) bad d

private theorem CompletesDeclaration.present {stop : Cursor → Bool} {kinds : List TokenKind}
    (hs : Stops stop kinds) (hdecl : CompletesDeclaration room) {o : Option Stmt}
    (h : Tolerant.Present (Tolerant.Item kinds room) ts o bad) (hc : c.Passes ts d) :
    Yields (item stop room) c (some o) bad d := by
  obtain ⟨s, rfl, h, hn⟩ := h
  obtain ⟨t, us, rfl⟩ := List.exists_cons_of_ne_nil h.ne_nil
  obtain ⟨c₁, hc₁, -⟩ := Cursor.passes_cons_iff.1 hc
  have hstop := hs.eq_false_of_passes hc₁ (Tolerant.headNotIn_cons.1 hn)
  exact yields_item hstop (hdecl _ _ _ _ _ h hc)

private theorem CompletesDeclaration.items {stop : Cursor → Bool} {kinds : List TokenKind}
    (hs : Stops stop kinds) (hdecl : CompletesDeclaration room) {body : List Stmt}
    (h : Tolerant.Program kinds room ts body bad) (hc : c.Passes ts d) (hd : stop d = true) :
    Yields (many (item stop room)) c (body.map some) bad d := by
  have row := Tolerant.row_present_iff.2 ⟨body, rfl, h.row⟩
  refine yields_many ?_ (fun h hc => hdecl.present hs h hc) row hc (yields_item_none hd)
  rintro ts o bad ⟨s, rfl, h, -⟩
  exact h.ne_nil

private theorem yields_terminated {c₁ : Cursor} {e : Expr} {sc : Token} (message : String)
    (f : Expr → Stmt) (h : Tolerant.Derives room .assignment ts e bad) (hc : c.Passes ts c₁)
    (hd : c₁.Passes [sc] d) (hs : sc.kind = .semicolon) :
    Yields (expression room .assignment >>= fun e => expect .semicolon message >>= fun _ =>
      pure (f e)) c (f e) bad d := by
  have hend : c₁.isAt Precedence.assignment.joining = false :=
    hd.isAt_eq_false (by rw [hs]; decide)
  exact (yields_expression h hc hend).bind_nil <| (yields_expect _ hd hs).bind_pure rfl

theorem yields_initializer {q : Token} {e : Expr} {c₁ : Cursor}
    (hc : c.Passes [q] c₁) (hq : q.kind = .assignment)
    (h : Yields (expression room .assignment) c₁ e bad d) :
    Yields (initializerWith (expression room .assignment)) c (some e) bad d := by
  unfold initializerWith
  exact (yields_accept_some hc (by simp [hq])).bind (h.bind_pure rfl)

theorem yields_initializer_none (h : c.isAt [.assignment] = false) :
    Yields (initializerWith (expression room .assignment)) c none [] c := by
  unfold initializerWith
  exact (yields_accept_none h).bind (yields_pure none c)

private theorem yields_leading (hdeeper : ∀ r, room = r + 1 → CompletesDeclaration r)
    (h : Tolerant.Declaration room ts s bad) (hc : c.Passes ts d) :
    Yields (leading room c.current.kind) c s bad d := by
  cases h with
  | var hk hn hs =>
    obtain ⟨c₁, hc₁, hc₁d⟩ := Cursor.passes_cons_iff.1 hc
    obtain ⟨c₂, hc₂, hc₂d⟩ := Cursor.passes_cons_iff.1 hc₁d
    have hq : c₂.isAt [.assignment] = false := hc₂d.isAt_eq_false (by simp [hs])
    rw [hc₁.current_eq, hk, leading_kwVar]
    exact (yields_skip hc₁).bind <| (yields_expect _ hc₂ hn).bind <|
      (yields_initializer_none hq).bind <| (yields_expect _ hc₂d hs).bind_pure rfl
  | init hk hn hq h hs =>
    obtain ⟨c₁, hc₁, hc₁d⟩ := Cursor.passes_cons_iff.1 hc
    obtain ⟨c₂, hc₂, hc₂d⟩ := Cursor.passes_cons_iff.1 hc₁d
    obtain ⟨c₃, hc₃, hc₃d⟩ := Cursor.passes_cons_iff.1 hc₂d
    obtain ⟨c₄, hc₄, hc₄d⟩ := Cursor.passes_append_iff.1 hc₃d
    have hend : c₄.isAt Precedence.assignment.joining = false :=
      hc₄d.isAt_eq_false (by rw [hs]; decide)
    rw [hc₁.current_eq, hk, leading_kwVar]
    exact (yields_skip hc₁).bind <| (yields_expect _ hc₂ hn).bind <|
      (yields_initializer hc₃ hq (yields_expression h hc₄ hend)).bind_nil <|
        (yields_expect _ hc₄d hs).bind_pure rfl
  | print hk h hs =>
    obtain ⟨c₁, hc₁, hc₁d⟩ := Cursor.passes_cons_iff.1 hc
    obtain ⟨c₂, hc₂, hc₂d⟩ := Cursor.passes_append_iff.1 hc₁d
    rw [hc₁.current_eq, hk, leading_kwPrint]
    exact (yields_skip hc₁).bind (yields_terminated _ .print h hc₂ hc₂d hs)
  | @block r _ _ body _ _ ho h hcl =>
    obtain ⟨c₁, hc₁, hc₁d⟩ := Cursor.passes_cons_iff.1 hc
    obtain ⟨c₂, hc₂, hc₂d⟩ := Cursor.passes_append_iff.1 hc₁d
    have hstop : blockEnd c₂ = true := by
      rw [blockEnd, hc₂d.isAt_iff.2 (by simp [hcl])]
      rfl
    have items := (hdeeper r rfl).items stops_blockEnd h hc₂ hstop
    rw [hc₁.current_eq, ho, leading_openCurly]
    refine (yields_skip hc₁).bind <| items.bind_nil <| (yields_expect _ hc₂d hcl).bind_pure ?_
    rw [reduceOption_map_some]
  | expression h hn hs =>
    obtain ⟨c₁, hc₁, hc₁d⟩ := Cursor.passes_append_iff.1 hc
    obtain ⟨t, us, rfl⟩ := List.exists_cons_of_ne_nil h.ne_nil
    obtain ⟨c₂, hc₂, -⟩ := Cursor.passes_cons_iff.1 hc₁
    rw [hc₂.current_eq, leading_of_not_mem room (Tolerant.headNotIn_cons.1 hn)]
    exact yields_terminated _ .expression h hc₁ hc₁d hs

private theorem completesDeclaration (room : Nat) : CompletesDeclaration room := by
  induction room using Nat.strongRecOn with
  | ind room ih =>
    intro ts s bad c d h hc
    have hdeeper : ∀ r, room = r + 1 → CompletesDeclaration r := fun r hr => ih r (by omega)
    obtain ⟨notes, hn, hr⟩ := (yields_leading hdeeper h hc).recovering
    exact ⟨notes, hn, by rw [declaration_apply, hr]⟩

theorem yields_declaration (h : Tolerant.Declaration room ts s bad) (hc : c.Passes ts d) :
    Yields (declaration .standard room) c (some s) bad d :=
  completesDeclaration room ts s bad c d h hc

theorem yields_present {stop : Cursor → Bool} {kinds : List TokenKind} (hs : Stops stop kinds)
    {o : Option Stmt} (h : Tolerant.Present (Tolerant.Item kinds room) ts o bad)
    (hc : c.Passes ts d) : Yields (item stop room) c (some o) bad d :=
  (completesDeclaration room).present hs h hc

/-- A repetition of declarations reads a program and goes on behind it. -/
theorem many_item_of_program {stop : Cursor → Bool} {kinds : List TokenKind} (hs : Stops stop kinds)
    {body : List Stmt} (h : Tolerant.Program kinds room ts body bad) (hc : c.Passes ts d) :
    ∃ notes, Note.Misplaced notes bad ∧
      many (item stop room) c =
        ⟨(many (item stop room) d).result.map (body.map some ++ ·), (many (item stop room) d).cursor,
          notes ++ (many (item stop room) d).notes⟩ := by
  have row := Tolerant.row_present_iff.2 ⟨body, rfl, h.row⟩
  refine many_of_row ?_ (fun h hc => yields_present hs h hc) row hc
  rintro ts o bad ⟨s, -, h, -⟩
  exact h.ne_nil

theorem yields_items {stop : Cursor → Bool} {kinds : List TokenKind} (hs : Stops stop kinds)
    {body : List Stmt} (h : Tolerant.Program kinds room ts body bad) (hc : c.Passes ts d)
    (hd : stop d = true) : Yields (many (item stop room)) c (body.map some) bad d :=
  (completesDeclaration room).items hs h hc hd

theorem yields_program {body : List Stmt} (h : Tolerant.Program [] room ts body bad)
    (hc : c.Passes ts d) (hd : d.atEnd = true) : Yields (program .standard room) c body bad d := by
  rw [program_eq]
  refine (yields_items stops_atEnd h hc hd).bind_pure ?_
  rw [reduceOption_map_some]

end Parse

end Lox

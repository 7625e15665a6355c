import Lox.Proofs.Cursor.Boundary
import Lox.Proofs.Parse.Relation

/-!
# The tokens ahead

What a production reads and reports depends on the tokens ahead of the cursor alone, whatever was
passed before: the number of a token enters into the log, but not into a tree or a diagnostic
(`Outcome.Agrees` is what it means that two runs agree).  The key facts: the productions agree from
cursors with the same tokens ahead (`respects_alike`), and so do the repetitions of declarations
(`alike_item`).
-/

namespace Lox

namespace Cursor

/-- The same tokens are ahead. -/
def SameAhead (c d : Cursor) : Prop :=
  c.rest = d.rest ∧ c.eof = d.eof

theorem SameAhead.looksLike {c d : Cursor} (h : c.SameAhead d) : c.LooksLike d := by
  unfold LooksLike current atEnd
  rw [h.1, h.2]
  exact ⟨rfl, rfl⟩

theorem SameAhead.advance {c d : Cursor} (h : c.SameAhead d) : c.advance.SameAhead d.advance := by
  obtain ⟨hrest, heof⟩ := h
  unfold Cursor.advance SameAhead
  rw [← hrest]
  cases hc : c.rest with
  | nil => exact ⟨by simp [hc, ← hrest], heof⟩
  | cons t rest => exact ⟨rfl, heof⟩

theorem eof_synchronize (c : Cursor) : c.synchronize.eof = c.eof := by
  obtain ⟨_, _, _, heof⟩ := c.le_synchronize
  exact heof

theorem SameAhead.synchronize {c d : Cursor} (h : c.SameAhead d) :
    c.synchronize.SameAhead d.synchronize := by
  refine ⟨?_, by rw [eof_synchronize, eof_synchronize, h.2]⟩
  cases hc : c.rest with
  | nil =>
    have hd : d.rest = [] := h.1.symm.trans hc
    simp [Cursor.synchronize, hc, hd]
  | cons t rest => rw [rest_synchronize hc, rest_synchronize (h.1.symm.trans hc)]

end Cursor

/-! ### Outcomes -/

private theorem mapError_map {ε ε' α β : Type} (f : ε → ε') (g : α → β) (r : Except ε α) :
    (r.map g).mapError f = (r.mapError f).map g := by
  cases r <;> rfl

/-- Both runs end with the same value or with faults that are reported alike, at places with the
same tokens ahead, and the first one reports `ds` before it reports what the second one does. -/
structure Outcome.Agrees {α : Type} (ds : List Diagnostic) (o o' : Outcome α) : Prop where
  result : o.result.mapError Fault.diagnostic = o'.result.mapError Fault.diagnostic
  ahead : o.cursor.SameAhead o'.cursor
  diagnostics : Note.diagnostics o.notes = ds ++ Note.diagnostics o'.notes

theorem Note.diagnostics_append (notes notes' : List Note) :
    Note.diagnostics (notes ++ notes') = Note.diagnostics notes ++ Note.diagnostics notes' := by
  rw [diagnostics, faults_append, List.map_append]
  rfl

namespace Outcome.Agrees

variable {α : Type} {ds : List Diagnostic} {c : Cursor} {notes : List Note} {o : Outcome α}

theorem exists_of_ok {a : α} (h : Agrees ds ⟨.ok a, c, notes⟩ o) :
    ∃ d notes', o = ⟨.ok a, d, notes'⟩ ∧ c.SameAhead d ∧
      Note.diagnostics notes = ds ++ Note.diagnostics notes' := by
  obtain ⟨f | b, d, notes'⟩ := o
  · cases h.result
  · obtain rfl : a = b := by simpa [Except.mapError] using h.result
    exact ⟨d, notes', rfl, h.ahead, h.diagnostics⟩

theorem exists_of_error {f : Fault} (h : Agrees ds ⟨.error f, c, notes⟩ o) :
    ∃ f' d notes', o = ⟨.error f', d, notes'⟩ ∧ f.diagnostic = f'.diagnostic ∧ c.SameAhead d ∧
      Note.diagnostics notes = ds ++ Note.diagnostics notes' := by
  obtain ⟨f' | b, d, notes'⟩ := o
  · have hf : f.diagnostic = f'.diagnostic := by simpa [Except.mapError] using h.result
    exact ⟨f', d, notes', rfl, hf, h.ahead, h.diagnostics⟩
  · cases h.result

theorem of_ok {a : α} {d : Cursor} (h : c.SameAhead d) : Agrees [] ⟨.ok a, c, []⟩ ⟨.ok a, d, []⟩ :=
  ⟨rfl, h, rfl⟩

/-- What is noted before adds up. -/
theorem append {o' : Outcome α} (h : Agrees [] o o') {notes' : List Note}
    (hn : Note.diagnostics notes = ds ++ Note.diagnostics notes') :
    Agrees ds ⟨o.result, o.cursor, notes ++ o.notes⟩
      ⟨o'.result, o'.cursor, notes' ++ o'.notes⟩ := by
  refine ⟨h.result, h.ahead, ?_⟩
  rw [Note.diagnostics_append, Note.diagnostics_append, hn, h.diagnostics, List.nil_append,
    List.append_assoc]

theorem map_append {β : Type} {o' : Outcome α} (h : Agrees [] o o') (g : α → β)
    {notes' : List Note} (hn : Note.diagnostics notes = ds ++ Note.diagnostics notes') :
    Agrees ds ⟨o.result.map g, o.cursor, notes ++ o.notes⟩
      ⟨o'.result.map g, o'.cursor, notes' ++ o'.notes⟩ := by
  refine ⟨?_, h.ahead, (h.append hn).diagnostics⟩
  rw [mapError_map, mapError_map, h.result]

end Outcome.Agrees

/-! ### Productions -/

namespace Parse

variable {α β : Type} {ds : List Diagnostic} {c d : Cursor}

/-- With the same tokens ahead the productions do the same. -/
def Alike (p q : Parse α) : Prop :=
  ∀ c d : Cursor, c.SameAhead d → (p c).Agrees [] (q d)

theorem Agrees.bind {p q : Parse α} {f g : α → Parse β} (h : (p c).Agrees ds (q d))
    (hfg : ∀ a, Alike (f a) (g a)) : ((p >>= f) c).Agrees ds ((q >>= g) d) := by
  rcases hp : p c with ⟨e | a, c', notes⟩ <;> rw [hp] at h
  · obtain ⟨e', d', notes', hq, he, hcd, hn⟩ := h.exists_of_error
    rw [bind_apply_of_error hp, bind_apply_of_error hq]
    exact ⟨congrArg Except.error he, hcd, hn⟩
  · obtain ⟨d', notes', hq, hcd, hn⟩ := h.exists_of_ok
    rw [bind_apply_of_ok hp, bind_apply_of_ok hq]
    exact (hfg a c' d' hcd).append hn

theorem Agrees.recovering {p q : Parse Stmt} (h : (p c).Agrees ds (q d)) :
    (recovering p c).Agrees ds (recovering q d) := by
  rcases hp : p c with ⟨e | a, c', notes⟩ <;> rw [hp] at h
  · obtain ⟨e', d', notes', hq, he, hcd, hn⟩ := h.exists_of_error
    rw [recovering_of_error hp, recovering_of_error hq]
    refine ⟨rfl, hcd.synchronize, ?_⟩
    rw [Note.diagnostics_append, Note.diagnostics_append, hn, List.append_assoc]
    exact congrArg (fun x => ds ++ (Note.diagnostics notes' ++ [x])) he
  · obtain ⟨d', notes', hq, hcd, hn⟩ := h.exists_of_ok
    rw [recovering_of_ok hp, recovering_of_ok hq]
    exact ⟨rfl, hcd, hn⟩

theorem alike_accept_bind {f g : Option Site → Parse α} (kinds : List TokenKind)
    (hnone : Alike (f none) (g none))
    (hsome : ∀ s t : Site, s.token = t.token → Alike (f (some s)) (g (some t))) :
    Alike (accept kinds >>= f) (accept kinds >>= g) := by
  intro c d hcd
  have hisAt := hcd.looksLike.isAt_eq kinds
  cases hc : c.isAt kinds <;> rw [hc] at hisAt
  · rw [bind_apply_of_ok (accept_of_isAt_eq_false hc),
      bind_apply_of_ok (accept_of_isAt_eq_false hisAt.symm)]
    exact hnone c d hcd
  · rw [bind_apply_of_ok (p := accept kinds) (if_pos hc),
      bind_apply_of_ok (p := accept kinds) (if_pos hisAt.symm)]
    exact hsome c.site d.site hcd.looksLike.1 _ _ hcd.advance

theorem Alike.many {p q : Parse (Option α)} (h : Alike p q) : Alike (many p) (many q) := by
  intro c d hcd
  have hpq := h c d hcd
  fun_induction Parse.many p c generalizing d with
  | case1 c a c' notes hp hlt o ih =>
    rw [hp] at hpq
    obtain ⟨d', notes', hq, hcd', hn⟩ := hpq.exists_of_ok
    have hlt' : d'.rest.length < d.rest.length := by rwa [← hcd'.1, ← hcd.1]
    rw [many_of_some hq hlt']
    exact (ih d' hcd' (h c' d' hcd')).map_append (a :: ·) hn
  | case2 c a c' notes hp hlt =>
    rw [hp] at hpq
    obtain ⟨d', notes', hq, hcd', hn⟩ := hpq.exists_of_ok
    rw [many_of_stuck hq (by rwa [← hcd'.1, ← hcd.1])]
    exact ⟨rfl, hcd', hn⟩
  | case3 c c' notes hp =>
    rw [hp] at hpq
    obtain ⟨d', notes', hq, hcd', hn⟩ := hpq.exists_of_ok
    rw [many_of_none hq]
    exact ⟨rfl, hcd', hn⟩
  | case4 c e c' notes hp =>
    rw [hp] at hpq
    obtain ⟨e', d', notes', hq, he, hcd', hn⟩ := hpq.exists_of_error
    rw [many_of_error hq]
    exact ⟨congrArg Except.error he, hcd', hn⟩

/-- Repetitions agree if their first items do and pass a token. -/
theorem Agrees.many {p : Parse (Option α)} (hp : Alike p p) (h : (p c).Agrees ds (p d))
    (hc : (p c).cursor.rest.length < c.rest.length)
    (hd : (p d).cursor.rest.length < d.rest.length) : (many p c).Agrees ds (many p d) := by
  rcases hpc : p c with ⟨e | _ | a, c', notes⟩ <;> rw [hpc] at h hc
  · obtain ⟨e', d', notes', hpd, he, hcd, hn⟩ := h.exists_of_error
    rw [many_of_error hpc, many_of_error hpd]
    exact ⟨congrArg Except.error he, hcd, hn⟩
  · obtain ⟨d', notes', hpd, hcd, hn⟩ := h.exists_of_ok
    rw [many_of_none hpc, many_of_none hpd]
    exact ⟨rfl, hcd, hn⟩
  · obtain ⟨d', notes', hpd, hcd, hn⟩ := h.exists_of_ok
    rw [hpd] at hd
    rw [many_of_some hpc hc, many_of_some hpd hd]
    exact (hp.many c' d' hcd).map_append (a :: ·) hn

theorem alike_pure (a : α) : Alike (pure a) (pure a) :=
  fun _ _ hcd => .of_ok hcd

theorem alike_assigning {s t : Site} (hst : s.token = t.token) (target value : Expr) :
    Alike (assigning target s value) (assigning target t value) := by
  have noted : Alike (keeping target s) (keeping target t) := by
    intro c d hcd
    refine ⟨rfl, hcd, ?_⟩
    show [Fault.diagnostic ⟨.invalidAssignmentTarget, s⟩] = _
    rw [Fault.diagnostic, hst]
    rfl
  cases target with
  | var name => exact alike_pure _
  | _ => exact noted

theorem Alike.assigned {target target' value value' : Parse Expr} (ht : Alike target target')
    (hv : Alike value value') : Alike (assigned target value) (assigned target' value') :=
  fun c d hcd => Agrees.bind (ht c d hcd) fun e => alike_accept_bind _ (alike_pure e)
    fun _ _ hst c d hcd => Agrees.bind (hv c d hcd) fun v => alike_assigning hst e v

theorem respects_alike : Respects Alike where
  pure := alike_pure
  bind hp hf c d hcd := Agrees.bind (hp c d hcd) hf
  here c d hcd := by
    unfold here
    rw [hcd.looksLike.1]
    exact .of_ok hcd
  skip _ _ hcd := .of_ok hcd.advance
  isAt kinds c d hcd := by
    unfold isAt
    rw [hcd.looksLike.isAt_eq]
    exact .of_ok hcd
  atEnd c d hcd := by
    unfold atEnd
    rw [hcd.looksLike.2]
    exact .of_ok hcd
  accept_bind := alike_accept_bind
  refuse _ _ c d hcd := by
    refine ⟨?_, hcd, rfl⟩
    simp [refuse, Except.mapError, Fault.diagnostic, Cursor.site, hcd.looksLike.1]
  assigned := Alike.assigned
  many := Alike.many
  recovering hp c d hcd := Agrees.recovering (hp c d hcd)

theorem alike_item {stop : Cursor → Bool} {kinds : List TokenKind} (hs : Stops stop kinds)
    (room : Nat) : Alike (item stop room) (item stop room) := by
  intro c d hcd
  unfold item
  rw [hs.looksLike hcd.looksLike]
  split
  · exact .of_ok hcd
  · exact Agrees.bind (respects_alike.declaration (.refl room) c d hcd) fun _ => alike_pure _

end Parse

open Parse

namespace TokenStream

theorem parse_of_agrees {ds : List Diagnostic} {t u : TokenStream}
    (h : (program .standard maxNesting t.cursor).Agrees ds
      (program .standard maxNesting u.cursor)) :
    t.parse.program = u.parse.program ∧ t.parse.diagnostics = ds ++ u.parse.diagnostics := by
  unfold parse
  rcases hrun : program .standard maxNesting t.cursor with ⟨f | body, d, notes⟩ <;> rw [hrun] at h
  · obtain ⟨f', d', notes', hrun', -, -, hn⟩ := h.exists_of_error
    rw [hrun']
    exact ⟨rfl, hn⟩
  · obtain ⟨d', notes', hrun', -, hn⟩ := h.exists_of_ok
    rw [hrun']
    exact ⟨rfl, hn⟩

end TokenStream

end Lox

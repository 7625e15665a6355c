import Lox.Proofs.Parse.Relation

/-!
# More levels

A run that did not lack levels is the same with more of them: if the productions with `room` levels
find no fault for want of a level, those with more levels pass the same tokens, give the same value
or the same fault, and note the same (`extends_expression`, `extends_statement`, `extends_program`).
For statements this holds with any rules.
-/

namespace Lox

/-- The faults that were noted, and the one that the production ended with. -/
def Outcome.faults {α : Type} (o : Outcome α) : List Fault :=
  Note.faults o.notes ++
    match o.result with
    | .ok _ => []
    | .error f => [f]

/-- No fault was found for want of a level. -/
def Outcome.Unhindered {α : Type} (o : Outcome α) : Prop :=
  ∀ f ∈ o.faults, f.cause ≠ .tooDeeplyNested

namespace Parse

variable {α β : Type}

/-! ### Faults of runs -/

theorem faults_bind_of_ok {p : Parse α} {f : α → Parse β} {c d : Cursor} {a : α}
    {notes : List Note} (h : p c = ⟨.ok a, d, notes⟩) :
    ((p >>= f) c).faults = (p c).faults ++ (f a d).faults := by
  rw [bind_apply_of_ok h, h]
  simp [Outcome.faults, Note.faults_append]

theorem faults_bind_of_error {p : Parse α} {f : α → Parse β} {c d : Cursor} {e : Fault}
    {notes : List Note} (h : p c = ⟨.error e, d, notes⟩) :
    ((p >>= f) c).faults = (p c).faults := by
  rw [bind_apply_of_error h, h]
  rfl

theorem faults_many_of_some {p : Parse (Option α)} {c d : Cursor} {a : α} {notes : List Note}
    (h : p c = ⟨.ok (some a), d, notes⟩) (hd : d.rest.length < c.rest.length) :
    (many p c).faults = (p c).faults ++ (many p d).faults := by
  rw [many_of_some h hd, h]
  rcases many p d with ⟨f | as, e, notes'⟩ <;>
    simp [Outcome.faults, Note.faults_append, Except.map]

/-- The fault that the production ends with is noted. -/
theorem faults_noting (p : Parse α) (c : Cursor) : (noting p c).faults = (p c).faults := by
  rcases h : p c with ⟨e | a, d, notes⟩
  · rw [noting_of_error h]
    simp [Outcome.faults, Note.faults, Note.fault?]
  · rw [noting_of_ok h]
    rfl

theorem faults_recovering (p : Parse Stmt) (c : Cursor) :
    (recovering p c).faults = (p c).faults := by
  rcases h : p c with ⟨e | s, d, notes⟩
  · rw [recovering_of_error h]
    simp [Outcome.faults, Note.faults, Note.fault?]
  · rw [recovering_of_ok h]
    rfl

/-! ### Extensions -/

/-- Where `p` does not lack levels, `q` does the same. -/
def Extends (p q : Parse α) : Prop :=
  ∀ c : Cursor, (p c).Unhindered → q c = p c

theorem extends_refl (p : Parse α) : Extends p p :=
  fun _ _ => rfl

theorem extends_refuse (q : Parse α) : Extends (refuse .tooDeeplyNested) q := by
  intro c h
  exact absurd rfl (h ⟨.tooDeeplyNested, c.site⟩ (List.mem_singleton.2 rfl))

theorem Extends.bind {p q : Parse α} {f g : α → Parse β} (hp : Extends p q)
    (hf : ∀ a, Extends (f a) (g a)) : Extends (p >>= f) (q >>= g) := by
  intro c h
  unfold Outcome.Unhindered at h
  rcases hrun : p c with ⟨e | a, d, notes⟩
  · rw [faults_bind_of_error hrun] at h
    have hq := (hp c h).trans hrun
    rw [bind_apply_of_error hrun, bind_apply_of_error hq]
  · rw [faults_bind_of_ok hrun, List.forall_mem_append] at h
    have hq := (hp c h.1).trans hrun
    rw [bind_apply_of_ok hrun, bind_apply_of_ok hq, hf a d h.2]

theorem Extends.assigned {target target' value value' : Parse Expr} (ht : Extends target target')
    (hv : Extends value value') : Extends (assigned target value) (assigned target' value') := by
  refine ht.bind fun e => (extends_refl _).bind ?_
  rintro (_ | equals)
  · exact extends_refl _
  · exact hv.bind fun v => extends_refl _

theorem Extends.many {p q : Parse (Option α)} (hp : Extends p q) :
    Extends (many p) (many q) := by
  intro c h
  fun_induction Parse.many p c with
  | case1 c a d notes hrun hlt o ih =>
    have hfaults := faults_many_of_some hrun hlt
    rw [many_of_some hrun hlt] at hfaults
    unfold Outcome.Unhindered at h
    rw [hfaults, List.forall_mem_append] at h
    rw [many_of_some ((hp c h.1).trans hrun) hlt, ih h.2]
  | case2 c a d notes hrun hlt =>
    rw [many_of_stuck ((hp c (by rw [hrun]; exact h)).trans hrun) hlt]
  | case3 c d notes hrun =>
    rw [many_of_none ((hp c (by rw [hrun]; exact h)).trans hrun)]
  | case4 c f d notes hrun =>
    rw [many_of_error ((hp c (by rw [hrun]; exact h)).trans hrun)]

theorem Extends.noting {p q : Parse α} (hp : Extends p q) : Extends (noting p) (noting q) := by
  intro c h
  unfold Outcome.Unhindered at h
  rw [faults_noting] at h
  have hq := hp c h
  rcases hrun : p c with ⟨e | a, d, notes⟩ <;> rw [hrun] at hq
  · rw [noting_of_error hrun, noting_of_error hq]
  · rw [noting_of_ok hrun, noting_of_ok hq]

theorem Extends.recovering {p q : Parse Stmt} (hp : Extends p q) :
    Extends (recovering p) (recovering q) :=
  hp.noting.bind fun _ => extends_refl _

theorem respects_extends : Respects Extends where
  pure a := extends_refl _
  bind := Extends.bind
  here := extends_refl _
  skip := extends_refl _
  isAt _ := extends_refl _
  atEnd := extends_refl _
  accept_bind kinds hnone hsome := by
    refine (extends_refl _).bind ?_
    rintro (_ | s)
    · exact hnone
    · exact hsome s s rfl
  refuse _ _ := extends_refl _
  assigned := Extends.assigned
  many := Extends.many
  recovering := Extends.recovering

theorem Extends.map {p q : Parse α} (h : Extends p q) (f : α → β) : Extends (f <$> p) (f <$> q) :=
  h.bind fun _ => extends_refl _

/-- Only levels that are left for the first production are compared. -/
theorem Extends.nested {deeper deeper' : Option β} {f : β → Parse α}
    (h : ∀ inner ∈ deeper, ∃ inner' ∈ deeper', Extends (f inner) (f inner')) :
    Extends (nested deeper f) (nested deeper' f) := by
  cases deeper with
  | none => exact extends_refuse _
  | some inner =>
    obtain ⟨inner', rfl, hinner⟩ := h inner rfl
    exact hinner

/-! ### Expressions -/

theorem extends_expression {room room' : Nat} (h : room ≤ room') (p : Precedence) :
    Extends (expression room p) (expression room' p) :=
  respects_extends.expression (.of_le h extends_refuse) p

theorem extends_binary {room room' : Nat} (h : room ≤ room') (p : Precedence) :
    Extends (binary room p) (binary room' p) :=
  respects_extends.leftAssoc p.operators (extends_expression h p.next)

theorem extends_grouping {room room' : Nat} (h : room ≤ room') :
    Extends (grouping room) (grouping room') := by
  refine Extends.nested ?_
  intro inner hi
  cases room with
  | zero => cases hi
  | succ room =>
    obtain ⟨r, rfl⟩ := Nat.exists_eq_add_one.2 (Nat.zero_lt_of_lt h)
    cases hi
    refine ⟨_, rfl, (extends_refl _).bind fun _ => ?_⟩
    exact (extends_expression (Nat.le_of_succ_le_succ h) _).bind fun _ => extends_refl _

/-! ### Statements -/

section Statement

variable {expr expr' : Parse Expr} {deeper deeper' : Option (Parse (Option Stmt))}
  (he : Extends expr expr') (hd : ∀ inner ∈ deeper, ∃ inner' ∈ deeper', Extends inner inner')

include he hd

private theorem extends_ruledWith (rule : StatementRule) :
    Extends (ruledWith expr deeper rule) (ruledWith expr' deeper' rule) := by
  cases rule with
  | statement => exact he.bind fun _ => extends_refl _
  | print => exact (extends_refl _).bind fun _ => he.bind fun _ => extends_refl _
  | varDecl =>
    exact (extends_refl _).bind fun _ => (extends_refl _).bind fun _ =>
      (respects_extends.initializerWith he).bind fun _ => extends_refl _
  | block =>
    refine Extends.nested fun inner hi => ?_
    obtain ⟨inner', hi', hinner⟩ := hd inner hi
    refine ⟨inner', hi', (extends_refl _).bind fun _ => Extends.bind (Extends.many ?_) fun _ =>
      extends_refl _⟩
    refine (extends_refl _).bind fun _ => (extends_refl _).bind fun _ => ?_
    split
    · exact extends_refl _
    · exact hinner.bind fun _ => extends_refl _

private theorem extends_ruleWith (rules : Rules) (rule : StatementRule) :
    Extends (ruleWith rules expr deeper rule) (ruleWith rules expr' deeper' rule) := by
  have ruled := extends_ruledWith he hd
  cases rule with
  | statement => exact (extends_refl _).bind fun token => ruled _
  | print => exact ruled _
  | varDecl => exact ruled _
  | block => exact ruled _

private theorem extends_declarationWith (rules : Rules) :
    Extends (declarationWith rules expr deeper) (declarationWith rules expr' deeper') :=
  (extends_refl here).bind fun _ => (extends_ruleWith he hd rules _).recovering

end Statement

variable (rules : Rules) {room room' : Nat} (h : room ≤ room')

include h

theorem extends_declaration :
    Extends (declaration rules room) (declaration rules room') := by
  induction room generalizing room' with
  | zero =>
    rw [declaration_eq, declaration_eq]
    exact extends_declarationWith (extends_expression h _) (by simp [deeperDeclaration]) rules
  | succ room ih =>
    obtain ⟨r, rfl⟩ := Nat.exists_eq_add_one.2 (Nat.zero_lt_of_lt h)
    refine extends_declarationWith (extends_expression h _) ?_ rules
    rintro _ ⟨⟩
    exact ⟨_, rfl, ih (Nat.le_of_succ_le_succ h)⟩

theorem extends_statement (rule : StatementRule) :
    Extends (statement rules room rule) (statement rules room' rule) := by
  refine extends_ruleWith (extends_expression h _) ?_ rules rule
  intro inner hi
  cases room with
  | zero => cases hi
  | succ room =>
    obtain ⟨r, rfl⟩ := Nat.exists_eq_add_one.2 (Nat.zero_lt_of_lt h)
    cases hi
    exact ⟨_, rfl, extends_declaration rules (Nat.le_of_succ_le_succ h)⟩

theorem extends_program : Extends (program rules room) (program rules room') := by
  refine Extends.bind (Extends.many ((extends_refl _).bind fun _ => ?_)) fun _ => extends_refl _
  split
  · exact extends_refl _
  · exact (extends_declaration rules h).bind fun _ => extends_refl _

end Parse

end Lox

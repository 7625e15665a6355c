import Lox.Proofs.Parse.Chronicle
import Lox.Proofs.Parse.Stream

/-!
# Kept tokens

The tokens that a production passes are kept, or they are given up where it recovers from a panic.
Whatever was reported, the tree that a production gives is derived from the tokens that are kept, by
the tolerant grammar (`TokenStream.exists_kept`).  Kept tokens lie outside of all recoveries.
-/

namespace Lox

/-- Between the cursors the notes were taken, and the tokens of the sites were passed, in this order
and outside of the recoveries. -/
structure Keeps (c : Cursor) (kept : List Site) (notes : List Note) (d : Cursor) : Prop where
  chronicle : Chronicle c notes d
  passed : ∀ k ∈ kept, ∃ b : Cursor, c ≤ b ∧ b.atEnd = false ∧ b.advance ≤ d ∧ k = b.site
  sorted : kept.Pairwise (·.index < ·.index)
  outside : ∀ k ∈ kept, ∀ r ∈ Note.recoveries notes, k.index < r.start ∨ r.stop ≤ k.index

namespace Keeps

variable {c d e : Cursor} {kept kept' : List Site} {notes notes' : List Note}

theorem index_le (h : Keeps c kept notes d) {k : Site} (hk : k ∈ kept) : c.index ≤ k.index := by
  obtain ⟨b, hcb, -, -, rfl⟩ := h.passed k hk
  exact Cursor.index_le_of_le hcb

theorem index_lt (h : Keeps c kept notes d) {k : Site} (hk : k ∈ kept) : k.index < d.index := by
  obtain ⟨b, -, hb, hbd, rfl⟩ := h.passed k hk
  exact Cursor.index_lt_of_advance_le hb hbd

theorem append (h : Keeps c kept notes d) (h' : Keeps d kept' notes' e) :
    Keeps c (kept ++ kept') (notes ++ notes') e where
  chronicle := .append h.chronicle h'.chronicle
  passed k hk := by
    rcases List.mem_append.1 hk with hk | hk
    · obtain ⟨b, hcb, hb, hbd, hsite⟩ := h.passed k hk
      exact ⟨b, hcb, hb, Cursor.le_trans hbd h'.chronicle.le, hsite⟩
    · obtain ⟨b, hdb, hb, hbe, hsite⟩ := h'.passed k hk
      exact ⟨b, Cursor.le_trans h.chronicle.le hdb, hb, hbe, hsite⟩
  sorted := List.pairwise_append.2 ⟨h.sorted, h'.sorted, fun _ hk _ hk' =>
    Nat.lt_of_lt_of_le (h.index_lt hk) (h'.index_le hk')⟩
  outside k hk r hr := by
    rw [Note.recoveries_append] at hr
    rcases List.mem_append.1 hk with hk | hk <;> rcases List.mem_append.1 hr with hr | hr
    · exact h.outside k hk r hr
    · exact .inl (Nat.lt_of_lt_of_le (h.index_lt hk) (h'.chronicle.between hr).index_le_start)
    · exact .inr (Nat.le_trans (h.chronicle.between hr).stop_le_index (h'.index_le hk))
    · exact h'.outside k hk r hr

/-- Nothing is kept. -/
theorem of_chronicle (h : Chronicle c notes d) : Keeps c [] notes d :=
  ⟨h, by simp, .nil, by simp⟩

theorem of_passes_singleton {t : Token} (h : c.Passes [t] d) : Keeps c [c.site] [] d where
  chronicle := .move ⟨_, h⟩
  passed k hk := by
    rw [List.mem_singleton.1 hk]
    exact ⟨c, c.le_refl, h.atEnd_eq, by rw [h.advance_eq]; exact d.le_refl, rfl⟩
  sorted := List.pairwise_singleton ..
  outside := by simp [Note.recoveries]

/-- Everything is kept. -/
theorem of_passes {ts : List Token} (h : c.Passes ts d) :
    ∃ kept : List Site, kept.map Site.token = ts ∧ Keeps c kept [] d := by
  induction ts generalizing c with
  | nil =>
    rw [h.eq_of_nil]
    exact ⟨[], rfl, of_chronicle (.move c.le_refl)⟩
  | cons t ts ih =>
    obtain ⟨e, hce, hed⟩ := Cursor.passes_cons_iff.1 h
    obtain ⟨kept, hkept, hkeeps⟩ := ih hed
    refine ⟨c.site :: kept, ?_, (of_passes_singleton hce).append hkeeps⟩
    rw [List.map_cons, hkept, Cursor.site, hce.current_eq]

/-- If there is no recovery, it makes no difference what else is noted. -/
theorem noting (h : Keeps c kept [] d) (hc : Chronicle c notes d)
    (hr : Note.recoveries notes = []) : Keeps c kept notes d :=
  ⟨hc, h.passed, h.sorted, by simp [hr]⟩

end Keeps

theorem Note.Misplaced.recoveries_eq_nil {notes : List Note} {bad : List Token}
    (h : Misplaced notes bad) : recoveries notes = [] := by
  obtain ⟨sites, -, rfl⟩ := h
  simp [recoveries, List.filterMap_map, Function.comp_def, recovery?]

namespace Parse

open Tolerant

variable {α : Type} {room : Nat} {c : Cursor}

/-- A value that the production ends with is derived from kept tokens. -/
def Retains (R : List Token → α → List Token → Prop) (p : Parse α) (c : Cursor) : Prop :=
  ∀ a d notes, p c = ⟨.ok a, d, notes⟩ →
    ∃ kept bad, Keeps c kept notes d ∧ R (kept.map Site.token) a bad

/-- The tokens of a declaration, the first of which has no kind that the current one has not. -/
def DeclarationAt (room : Nat) (c : Cursor) (ts : List Token) (s : Stmt) (bad : List Token) :
    Prop :=
  Declaration room ts s bad ∧ ∀ kinds, c.isAt kinds = false → HeadNotIn kinds ts

/-- If a statement has no panic, all its tokens are kept. -/
private theorem retains_of_ne_openCurly (hc : c.Closed) (hk : c.current.kind ≠ .openCurly) :
    Retains (DeclarationAt room c) (leading room c.current.kind) c := by
  intro s d notes hrun
  obtain ⟨ts, d', hpass, ⟨s', bad, hdecl, n, hn, hyields⟩ | ⟨cause, bad, n, hn, hfails⟩⟩ :=
    leading_of_ne_openCurly room hc hk
  · rw [hyields] at hrun
    cases hrun
    have hchronicle := (respects_chronicled.leading (.refl room) c.current.kind c).notes
    rw [hyields] at hchronicle
    obtain ⟨kept, rfl, hkeeps⟩ := Keeps.of_passes hpass
    exact ⟨kept, bad, hkeeps.noting hchronicle hn.recoveries_eq_nil, hdecl,
      fun _ hkinds => hpass.headNotIn hkinds⟩
  · rw [hfails] at hrun
    cases hrun

private theorem retains_recovering {R : List Token → Stmt → List Token → Prop} {p : Parse Stmt}
    (hp : Retains R p c) (hrec : Chronicled (recovering p)) :
    Retains (Optional R) (recovering p) c := by
  intro o d notes hrun
  have hchronicle := (hrec c).notes
  rcases hpc : p c with ⟨f | s, e, n⟩
  · rw [hrun] at hchronicle
    rw [recovering_of_error hpc] at hrun
    cases hrun
    exact ⟨[], [], .of_chronicle hchronicle, .none⟩
  · rw [recovering_of_ok hpc] at hrun
    cases hrun
    obtain ⟨kept, bad, hkeeps, hR⟩ := hp s d notes hpc
    exact ⟨kept, bad, hkeeps, .some hR⟩

/-- What is retained of declarations with this number of levels. -/
private def RetainsDeclarations (room : Nat) : Prop :=
  ∀ c : Cursor, c.Closed →
    Retains (Optional (DeclarationAt room c)) (declaration .standard room) c

private theorem retains_declaration
    (h : Retains (DeclarationAt room c) (leading room c.current.kind) c) :
    Retains (Optional (DeclarationAt room c)) (declaration .standard room) c := by
  intro o d notes hrun
  rw [declaration_apply] at hrun
  exact retains_recovering h (respects_chronicled.leading (.refl room) _).recovering o d notes hrun

/-- An item adds one statement to a program, or none. -/
private theorem retains_item {stop : Cursor → Bool} {kinds : List TokenKind}
    (hs : Stops stop kinds) (hdecl : RetainsDeclarations room) (hc : c.Closed) :
    Retains (fun ts o bad => Program kinds room ts o.toList.reduceOption bad) (item stop room)
      c := by
  intro o d notes hrun
  obtain ⟨rfl, rfl, rfl⟩ | ⟨a, rfl, hstop, hrun⟩ := eq_or_exists_of_item_eq_ok hrun
  · exact ⟨[], [], .of_chronicle (.move d.le_refl), .nil⟩
  · obtain ⟨kept, bad, hkeeps, ha⟩ := hdecl c hc a d notes hrun
    refine ⟨kept, bad, hkeeps, ?_⟩
    generalize kept.map Site.token = ts at ha
    cases ha with
    | none => exact .nil
    | some h => exact h.1.program (h.2 kinds (hs.isAt_eq_false hstop))

private theorem retains_items {stop : Cursor → Bool} {kinds : List TokenKind}
    (hs : Stops stop kinds) (hdecl : RetainsDeclarations room) (hc : c.Closed) :
    Retains (fun ts os bad => Program kinds room ts os.reduceOption bad) (many (item stop room))
      c := by
  intro os e notes hrun
  fun_induction Parse.many (item stop room) c generalizing os e notes with
  | case1 c a d n hitem _ o ih =>
    obtain ⟨kept, bad, hkeeps, ha⟩ := retains_item hs hdecl hc (some a) d n hitem
    rcases ho : o with ⟨f | os', e', n'⟩ <;> rw [ho] at hrun <;> cases hrun
    obtain ⟨kept', bad', hkeeps', hos⟩ := ih (hc.of_le hkeeps.chronicle.le) os' _ n' ho
    refine ⟨kept ++ kept', bad ++ bad', hkeeps.append hkeeps', ?_⟩
    show Program kinds room _ ([a] ++ os').reduceOption _
    rw [List.map_append, List.reduceOption_append]
    exact ha.append hos
  | case2 c a d n hitem _ =>
    cases hrun
    exact retains_item hs hdecl hc (some a) d n hitem
  | case3 c d n hitem =>
    cases hrun
    exact retains_item hs hdecl hc none d n hitem
  | case4 c f d n hitem => cases hrun

/-- The braces of a block are kept, whatever was given up between them. -/
private theorem retains_block (hdecl : RetainsDeclarations room) (hc : c.Closed)
    (hk : c.current.kind = .openCurly) :
    Retains (DeclarationAt (room + 1) c) (leading (room + 1) .openCurly) c := by
  intro s e notes hrun
  have hopen := hc.passes_advance (.inl (by simp [hk]))
  rw [leading_openCurly] at hrun
  obtain ⟨_, d₁, n₁, _, hskip, hafter, rfl⟩ := exists_of_bind_eq_ok hrun
  rw [skip_of_passes hopen] at hskip
  cases hskip
  obtain ⟨os, d₂, n₂, _, hitems, hbehind, rfl⟩ := exists_of_bind_eq_ok hafter
  obtain ⟨b, d₃, n₃, _, hexpect, hlast, rfl⟩ := exists_of_bind_eq_ok hbehind
  cases hlast
  obtain ⟨hclose, hb, rfl⟩ := passes_of_expect_eq_ok hexpect
  obtain ⟨kept, bad, hkeeps, hos⟩ :=
    retains_items stops_blockEnd hdecl (hc.of_passes hopen) os d₂ n₂ hitems
  have key := ((Keeps.of_passes_singleton hopen).append hkeeps).append
    (Keeps.of_passes_singleton hclose)
  have htokens : ([c.site] ++ kept ++ [d₂.site]).map Site.token =
      c.current :: kept.map Site.token ++ [b] := by
    simp [Cursor.site, hclose.current_eq]
  refine ⟨[c.site] ++ kept ++ [d₂.site], bad, by simpa using key, ?_⟩
  rw [htokens]
  refine ⟨.block hk hos hb, fun kinds hkinds => ?_⟩
  rw [List.cons_append, headNotIn_cons, ← hopen.isAt_iff, hkinds]
  decide

private theorem retains_leading (hdecl : ∀ r, room = r + 1 → RetainsDeclarations r)
    (hc : c.Closed) : Retains (DeclarationAt room c) (leading room c.current.kind) c := by
  by_cases hk : c.current.kind = .openCurly
  · rw [hk]
    cases room with
    | zero =>
      rintro s d notes ⟨⟩
    | succ room => exact retains_block (hdecl room rfl) hc hk
  · exact retains_of_ne_openCurly hc hk

private theorem retainsDeclarations (room : Nat) : RetainsDeclarations room := by
  induction room with
  | zero => exact fun c hc => retains_declaration (retains_leading (by simp) hc)
  | succ room ih =>
    refine fun c hc => retains_declaration (retains_leading ?_ hc)
    rintro _ ⟨⟩
    exact ih

/-- The program that is read is derived from kept tokens, whatever was reported. -/
theorem retains_program (room : Nat) (hc : c.Closed) :
    Retains (Program [] room) (program .standard room) c := by
  intro body d notes hrun
  rw [program_eq] at hrun
  obtain ⟨os, d', n, _, hitems, hlast, rfl⟩ := exists_of_bind_eq_ok hrun
  cases hlast
  rw [List.append_nil]
  exact retains_items stops_atEnd (retainsDeclarations room) hc os d n hitems

end Parse

namespace TokenStream

/-- The program that is returned is derived from kept tokens of the stream. -/
theorem exists_kept {s : TokenStream} (h : s.cursor.Closed) :
    ∃ (kept : List Site) (bad : List Token),
      (∀ k ∈ kept, s.toList[k.index]? = some k.token) ∧
      kept.Pairwise (·.index < ·.index) ∧
      (∀ k ∈ kept, ∀ r ∈ Note.recoveries s.parse.notes, k.index < r.start ∨ r.stop ≤ k.index) ∧
      Tolerant.Program [] Parse.maxNesting (kept.map Site.token) s.parse.program bad := by
  obtain ⟨d, hrun⟩ := s.exists_run
  obtain ⟨kept, bad, hkeeps, hprogram⟩ := Parse.retains_program Parse.maxNesting h _ d _ hrun
  refine ⟨kept, bad, fun k hk => ?_, hkeeps.sorted, hkeeps.outside, hprogram⟩
  obtain ⟨b, hb, -, -, rfl⟩ := hkeeps.passed k hk
  exact getElem?_toList_of_le hb

end TokenStream

end Lox

import Mathlib.Data.List.Perm.Subperm
import Lox.Proofs.Parse.Kept
import Lox.Proofs.Parse.Levels

/-!
# The accounts of a parse

What the parser reports, what it logs and what it returns fit together on every stream
(`accounts_parse`).  There is one recovery for each panic, and it is logged; the recoveries move
forward one behind the other; the program is made of tokens outside of them.  No two faults are at
the same token, unless that is the end of input, and there the faults are limited by the levels: a
block has one at most that the declarations in it have not (`endFaults_program_le`).
-/

namespace Lox

/-- The fault was found at an end-of-input token. -/
def Fault.atEnd (f : Fault) : Bool :=
  f.site.token.kind = .eof

namespace Note

/-- The number of faults at the end of input. -/
def endFaults (notes : List Note) : Nat :=
  (faults notes).countP Fault.atEnd

theorem endFaults_append (notes notes' : List Note) :
    endFaults (notes ++ notes') = endFaults notes + endFaults notes' := by
  rw [endFaults, faults_append, List.countP_append]
  rfl

end Note

namespace Chronicle

variable {c d : Cursor} {notes : List Note}

theorem endFaults_eq_zero (h : Chronicle c notes d)
    (hf : ∀ f ∈ Note.faults notes, f.FoundBetween c d → f.site.token.kind ≠ .eof) :
    Note.endFaults notes = 0 := by
  rw [Note.endFaults, List.countP_eq_zero]
  intro f hmem
  simpa [Fault.atEnd] using hf f hmem (h.foundBetween hmem)

theorem endFaults_of_atEnd_eq_false (h : Chronicle c notes d) (hc : c.Ended)
    (hd : d.atEnd = false) : Note.endFaults notes = 0 :=
  h.endFaults_eq_zero fun _ _ hf => hf.kind_ne_of_atEnd_eq_false hc hd

theorem endFaults_of_misplaced (h : Chronicle c notes d) {bad : List Token}
    (hn : Note.Misplaced notes bad) : Note.endFaults notes = 0 := by
  refine h.endFaults_eq_zero fun f hf hfound heof => ?_
  have hp : f.cause.isPanic = false := by
    rw [hn.cause_eq hf]
    rfl
  rw [hfound.kind_of_isPanic_eq_false hp] at heof
  cases heof

end Chronicle

namespace Parse

variable {room : Nat} {c : Cursor}

/-! ### Faults at the end -/

/-- The bound on the faults of a declaration at the end of input. -/
private def EndsWithin (room : Nat) : Prop :=
  ∀ c : Cursor, c.Closed → c.Ended →
    Note.endFaults (declaration .standard room c).notes ≤ room + 1

private theorem countP_leading_of_ne_openCurly (hc : c.Closed)
    (hk : c.current.kind ≠ .openCurly) :
    (leading room c.current.kind c).faults.countP Fault.atEnd ≤ 1 := by
  have hchronicle := (respects_chronicled.leading (.refl room) c.current.kind c).notes
  obtain ⟨ts, d, -, ⟨s, bad, -, n, hn, hrun⟩ | ⟨cause, bad, n, hn, hrun⟩⟩ :=
    leading_of_ne_openCurly room hc hk
  all_goals
    rw [hrun] at hchronicle ⊢
    have hzero : (Note.faults n).countP Fault.atEnd = 0 := hchronicle.endFaults_of_misplaced hn
    rw [Outcome.faults, List.countP_append, hzero, Nat.zero_add]
  · exact Nat.zero_le 1
  · exact List.countP_le_length

private theorem endFaults_item_le {stop : Cursor → Bool} (hdecl : EndsWithin room)
    (hc : c.Closed) (he : c.Ended) : Note.endFaults (item stop room c).notes ≤ room + 1 := by
  have hfirst := hdecl c hc he
  unfold item
  split
  · exact Nat.zero_le _
  · rcases hrun : declaration .standard room c with ⟨f | a, d, n⟩ <;> rw [hrun] at hfirst
    · have key : (some <$> declaration .standard room) c = ⟨.error f, d, n⟩ :=
        bind_apply_of_error hrun
      rwa [key]
    · have key : (some <$> declaration .standard room) c = ⟨.ok (some a), d, n ++ []⟩ :=
        bind_apply_of_ok hrun
      rwa [key, List.append_nil]

/-- Only the last item comes to the end. -/
private theorem endFaults_items_le {stop : Cursor → Bool}
    (hs : stop = blockEnd ∨ stop = Cursor.atEnd) (hdecl : EndsWithin room) (hc : c.Closed)
    (he : c.Ended) : Note.endFaults (many (item stop room) c).notes ≤ room + 1 := by
  have hfirst := @endFaults_item_le room c stop hdecl hc he
  fun_induction Parse.many (item stop room) c with
  | case1 c a d n hitem _ o ih =>
    have hchronicle := (respects_chronicled.item hs (.refl room) c).notes
    rw [hitem] at hfirst hchronicle
    have hd := hc.of_le hchronicle.le
    have hend := he.of_le hchronicle.le
    show Note.endFaults (n ++ o.notes) ≤ _
    rw [Note.endFaults_append]
    cases h : d.atEnd with
    | false =>
      rw [hchronicle.endFaults_of_atEnd_eq_false he h, Nat.zero_add]
      exact ih hd hend (endFaults_item_le hdecl hd hend)
    | true =>
      have hstop : stop d = true := by
        rcases hs with rfl | rfl
        · exact Bool.or_eq_true_iff.2 (.inr h)
        · exact h
      have ho : o = ⟨.ok [], d, []⟩ := many_item_of_stop hstop
      rw [ho]
      exact hfirst
  | case2 c a d n hitem _ => rwa [hitem] at hfirst
  | case3 c d n hitem => rwa [hitem] at hfirst
  | case4 c f d n hitem => rwa [hitem] at hfirst

theorem length_faults_expect_bind_pure_le {α : Type} (kind : TokenKind) (message : String)
    (f : Token → α) (c : Cursor) :
    ((expect kind message >>= fun t => pure (f t)) c).faults.length ≤ 1 := by
  cases hk : c.isAt [kind] with
  | false =>
    rw [faults_bind_of_error (expect_of_isAt_eq_false message hk),
      expect_of_isAt_eq_false message hk]
    exact Nat.le_refl 1
  | true =>
    obtain ⟨t, ht, hpass⟩ := Cursor.exists_passes_of_isAt hk
    have hrun := expect_of_passes message hpass (List.mem_singleton.1 ht)
    rw [faults_bind_of_ok hrun, hrun]
    exact Nat.zero_le 1

/-- At the end of input the closing brace may be missing too. -/
private theorem countP_block_le (hdecl : EndsWithin room) (hc : c.Closed) (he : c.Ended)
    (hk : c.current.kind = .openCurly) :
    (leading (room + 1) .openCurly c).faults.countP Fault.atEnd ≤ room + 2 := by
  have hopen := hc.passes_advance (.inl (by simp [hk]))
  obtain ⟨os, hos⟩ := (settled_item blockEnd room).many c.advance
  have hitems := endFaults_items_le (.inl rfl) hdecl (hc.of_passes hopen)
    (he.of_le c.le_advance)
  rw [leading_openCurly, faults_bind_of_ok (skip_of_passes hopen), skip_of_passes hopen]
  rcases hmany : many (item blockEnd room) c.advance with ⟨f | os, d, n⟩ <;> rw [hmany] at hos hitems
  · cases hos
  · rw [faults_bind_of_ok hmany, hmany]
    have hclose : (((expect .closeCurly "Expect '\x7d' after block." >>= fun _ =>
        pure (Stmt.block os.reduceOption)) d).faults).countP Fault.atEnd ≤ 1 :=
      List.countP_le_length.trans (length_faults_expect_bind_pure_le ..)
    have hbody : (Outcome.faults ⟨.ok os, d, n⟩).countP Fault.atEnd = Note.endFaults n := by
      simp [Outcome.faults, Note.endFaults]
    have hskip : (Outcome.faults (α := Unit) ⟨.ok (), c.advance, []⟩).countP Fault.atEnd = 0 := rfl
    have hitems : Note.endFaults n ≤ room + 1 := hitems
    rw [List.countP_append, List.countP_append, hbody, hskip]
    omega

private theorem countP_leading_le (hdecl : ∀ r, room = r + 1 → EndsWithin r) (hc : c.Closed)
    (he : c.Ended) :
    (leading room c.current.kind c).faults.countP Fault.atEnd ≤ room + 1 := by
  by_cases hk : c.current.kind = .openCurly
  · rw [hk]
    cases room with
    | zero => exact List.countP_le_length
    | succ room => exact countP_block_le (hdecl room rfl) hc he hk
  · exact (countP_leading_of_ne_openCurly hc hk).trans (Nat.le_add_left 1 room)

private theorem endsWithin_of_leading
    (h : ∀ c : Cursor, c.Closed → c.Ended →
      (leading room c.current.kind c).faults.countP Fault.atEnd ≤ room + 1) :
    EndsWithin room := by
  intro c hc he
  rw [declaration_apply]
  obtain ⟨o, ho⟩ := settled_recovering (leading room c.current.kind) c
  have key := h c hc he
  rw [← faults_recovering, Outcome.faults, ho, List.append_nil] at key
  exact key

private theorem endsWithin (room : Nat) : EndsWithin room := by
  induction room with
  | zero => exact endsWithin_of_leading fun c hc he => countP_leading_le (by simp) hc he
  | succ room ih =>
    refine endsWithin_of_leading fun c hc he => countP_leading_le ?_ hc he
    rintro _ ⟨⟩
    exact ih

theorem endFaults_program_le (room : Nat) (hc : c.Closed) (he : c.Ended) :
    Note.endFaults (program .standard room c).notes ≤ room + 1 := by
  have hitems := endFaults_items_le (.inr rfl) (endsWithin room) hc he
  rw [program_eq]
  rcases hmany : many (item Cursor.atEnd room) c with ⟨f | os, d, n⟩ <;> rw [hmany] at hitems
  · rwa [bind_apply_of_error hmany]
  · rwa [bind_apply_of_ok hmany, pure_apply, List.append_nil]

end Parse

/-! ### The log -/

/-- The line tells of a recovery. -/
def LogLine.tellsRecovery (l : LogLine) : Bool :=
  "synchronized from token ".toList.isPrefixOf l.text.toList

theorem Recovery.tellsRecovery_logLine (r : Recovery) : r.logLine.tellsRecovery = true := by
  simp [logLine, LogLine.tellsRecovery, String.toList_append]

theorem Diagnostic.tellsRecovery_logLine (d : Diagnostic) : d.logLine.tellsRecovery = false := by
  simp [logLine, headline, LogLine.tellsRecovery, String.toList_append, List.isPrefixOf]

namespace Parsing

/-- What the diagnostics report, with the places in the stream. -/
def faults (p : Parsing) : List Fault :=
  Note.faults p.notes

def panics (p : Parsing) : List Fault :=
  Note.panics p.notes

def recoveries (p : Parsing) : List Recovery :=
  Note.recoveries p.notes

/-- The other lines of the log tell of the start, of the end and of the diagnostics. -/
theorem filter_tellsRecovery_log (p : Parsing) :
    p.log.filter LogLine.tellsRecovery = p.recoveries.map Recovery.logLine := by
  have hstart : LogLine.tellsRecovery
      ⟨.debug, "parsing " ++ toString p.size ++ " tokens"⟩ = false := by
    simp [LogLine.tellsRecovery, String.toList_append, List.isPrefixOf]
  have hend : LogLine.tellsRecovery ⟨.debug, "parsed " ++ toString p.program.length ++
      " statements with " ++ toString p.diagnostics.length ++ " errors"⟩ = false := by
    simp [LogLine.tellsRecovery, String.toList_append, List.isPrefixOf]
  have hrecoveries : (p.recoveries.map Recovery.logLine).filter LogLine.tellsRecovery =
      p.recoveries.map Recovery.logLine := by
    simp [List.filter_eq_self, Recovery.tellsRecovery_logLine]
  have hdiagnostics : (p.diagnostics.map (·.logLine)).filter LogLine.tellsRecovery = [] := by
    simp [List.filter_eq_nil_iff, Diagnostic.tellsRecovery_logLine]
  rw [log, Note.filterMap_logLine?, List.filter_append, List.filter_append, List.filter_append,
    hdiagnostics, List.filter_singleton, List.filter_singleton, hstart, hend]
  show [] ++ (p.recoveries.map Recovery.logLine).filter LogLine.tellsRecovery ++ [] ++ [] = _
  rw [hrecoveries, List.nil_append, List.append_nil, List.append_nil]

/-! ### The accounts -/

/-- What was reported, logged and returned fits together with the tokens `ts` that were parsed. -/
structure Accounts (p : Parsing) (ts : List Token) : Prop where
  /-- The number of a fault's token is its number in the stream. -/
  located : ∀ f ∈ p.faults, ts[f.site.index]? = some f.site.token
  logged : p.log.filter LogLine.tellsRecovery = p.recoveries.map Recovery.logLine
  starts : p.recoveries.map Recovery.start = p.panics.map (·.site.index)
  /-- A recovery leaves its first token behind, unless that is the end of input. -/
  forward : ∀ r ∈ p.recoveries, ∃ t, ts[r.start]? = some t ∧
    (t.kind ≠ .eof → r.start < r.stop) ∧ (t.kind = .eof → r.stop = r.start)
  ordered : p.recoveries.Pairwise fun r r' => r.stop ≤ r'.start
  /-- The program is derived from tokens outside of the recoveries. -/
  kept : ∃ (kept : List Site) (bad : List Token),
    (∀ k ∈ kept, ts[k.index]? = some k.token) ∧
    kept.Pairwise (·.index < ·.index) ∧
    (∀ k ∈ kept, ∀ r ∈ p.recoveries, k.index < r.start ∨ r.stop ≤ k.index) ∧
    Tolerant.Program [] Parse.maxNesting (kept.map Site.token) p.program bad
  apart : p.faults.Pairwise fun f g =>
    f.site.token.kind ≠ .eof → g.site.token.kind ≠ .eof → f.site.index ≠ g.site.index
  atEnd : p.faults.countP Fault.atEnd ≤ Parse.maxNesting + 1
  bounded : p.diagnostics.length ≤ ts.length + Parse.maxNesting

end Parsing

namespace TokenStream

variable {s : TokenStream}

/-- The last token is an end of input, and every other token has one other fault at most. -/
private theorem length_faults_le {faults : List Fault}
    (hlocated : ∀ f ∈ faults, s.toList[f.site.index]? = some f.site.token)
    (hapart : faults.Pairwise fun f g =>
      f.site.token.kind ≠ .eof → g.site.token.kind ≠ .eof → f.site.index ≠ g.site.index) :
    faults.length ≤ s.body.length + faults.countP Fault.atEnd := by
  let others := faults.filter (!·.atEnd)
  have hothers : ∀ f ∈ others, f ∈ faults ∧ f.site.token.kind ≠ .eof := by
    intro f hf
    simpa [others, Fault.atEnd] using hf
  have hnodup : (others.map (·.site.index)).Nodup := by
    refine List.pairwise_map.2 ((hapart.filter _).imp_of_mem fun hf hg h => ?_)
    exact h (hothers _ hf).2 (hothers _ hg).2
  have hsubset : others.map (·.site.index) ⊆ List.range s.body.length := by
    intro i hi
    obtain ⟨f, hf, rfl⟩ := List.mem_map.1 hi
    exact List.mem_range.2 (lt_length_body (hlocated f (hothers f hf).1) (hothers f hf).2)
  have hle := (List.subperm_of_subset hnodup hsubset).length_le
  rw [List.length_map, List.length_range] at hle
  have hsplit : faults.length = faults.countP Fault.atEnd + others.length := by
    rw [List.length_eq_countP_add_countP Fault.atEnd, ← List.countP_eq_length_filter]
    simp
  omega

/-- If no end of input carries a value, the accounts of the parser are in order. -/
theorem accounts_parse (h : ∀ t ∈ s.toList, t.kind = .eof → t.literal = none) :
    s.parse.Accounts s.toList := by
  have hclosed := closed_cursor_of_toList h
  have hended := s.ended_cursor
  obtain ⟨d, hchronicle⟩ := s.chronicle_parse
  have hlocated : ∀ f ∈ s.parse.faults, s.toList[f.site.index]? = some f.site.token :=
    fun f hf => (s.faults_parse hf).2
  have hapart : s.parse.faults.Pairwise fun f g =>
      f.site.token.kind ≠ .eof → g.site.token.kind ≠ .eof → f.site.index ≠ g.site.index :=
    (hchronicle.pairwise_faults hended).imp fun h hf _ hfg => hf (h hfg)
  have hatEnd : s.parse.faults.countP Fault.atEnd ≤ Parse.maxNesting + 1 :=
    Parse.endFaults_program_le Parse.maxNesting hclosed hended
  refine ⟨hlocated, s.parse.filter_tellsRecovery_log, hchronicle.map_start_recoveries, ?_,
    hchronicle.pairwise_recoveries, exists_kept hclosed, hapart, hatEnd, ?_⟩
  · intro r hr
    obtain ⟨b, hb, -, rfl⟩ := hchronicle.between hr
    have hend := hended.of_le hb
    exact ⟨b.current, getElem?_toList_of_le hb, hend.start_lt_stop, hend.stop_eq_start⟩
  · have hlen := length_faults_le hlocated hapart
    show (s.parse.faults.map Fault.diagnostic).length ≤ _
    rw [List.length_map, toList, List.length_append, List.length_singleton]
    omega

/-- In `{ print ;` the expression is missing at the semicolon, and behind it the closing brace. -/
theorem accounts_parse_open_block :
    let s : TokenStream :=
      ⟨[.plain .openCurly, .plain .kwPrint, .plain .semicolon], .plain .eof, rfl⟩
    s.parse.Accounts s.toList ∧
      s.parse.recoveries.map (fun r => (r.start, r.stop)) = [(2, 3), (3, 3)] := by
  intro s
  exact ⟨accounts_parse (by decide), by decide +kernel⟩

end TokenStream

end Lox

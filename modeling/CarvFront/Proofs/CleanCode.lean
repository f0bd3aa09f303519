import CarvFront.Proofs.Locality

/-! Code without faults is read alike wherever it stands: before the end of a program, and before
anything else if it ends with a semicolon. -/
namespace CarvFront

theorem Cursor.Course.faults_eq {c c' : Cursor} {w : List Token} (h : c.Course w c')
    (hlen : c'.faults.length = c.faults.length) : c'.faults = c.faults := by
  obtain ⟨new, hnew, -⟩ := h.faults
  rw [hnew, List.length_append] at hlen
  obtain rfl : new = [] := List.length_eq_zero_iff.mp (by omega)
  rw [hnew, List.append_nil]

theorem Cursor.next_eq {c : Cursor} {t : Token} {ts : List Token} (h : c.rest = t :: ts) :
    c.next = { c with rest := ts, prev := t.span } := by
  obtain ⟨_, prev, depth, faults⟩ := c
  cases h
  rfl

namespace Grammar
open CarvFront.Parser

theorem inside_unclosed (n : Nat) (c : Cursor) : Taking Inside c (unclosed (.levels n)) :=
  taking_unclosed law_inside (obey_levels law_inside n) c

theorem local_unclosed (n : Nat) (c : Cursor) : Taking Local c (unclosed (.levels n)) :=
  taking_unclosed law_local (obey_levels law_local n) c

theorem local_statement (n : Nat) (c : Cursor) : Taking Local c (statement (.levels n)) :=
  taking_statement law_local (obey_levels law_local n) c

/-! ### The semicolon behind a statement -/

theorem closeStmt_of_semicolon {c : Cursor} (hc : c.kind = .sym .semicolon) (s : Stmt) :
    closeStmt (s, true) c = (some s, c.next) := by
  have heat : eat (.sym .semicolon) c = (some true, c.next) := if_pos hc
  have hsemicolon : semicolon c = (some (), c.next) := by
    rw [semicolon, bind_of_some heat]
    rfl
  rw [closeStmt, if_pos rfl, bind_of_some hsemicolon]
  rfl

theorem closeStmt_of_ne {c : Cursor} (hc : c.kind ≠ .sym .semicolon) (s : Stmt) :
    closeStmt (s, true) c = (some s, if c.kind = .sym .rbrace ∨ c.kind = .eof then c
      else c.report (.expected (.token (.sym .semicolon)) c.kind)) := by
  have heat : eat (.sym .semicolon) c = (some false, c) := if_neg hc
  have hpeek : peek c = (some c.kind, c) := rfl
  have hsemicolon : semicolon c = (some (), if c.kind = .sym .rbrace ∨ c.kind = .eof then c
      else c.report (.expected (.token (.sym .semicolon)) c.kind)) := by
    rw [semicolon, bind_of_some heat, if_neg Bool.false_ne_true, bind_of_some hpeek]
    split <;> rfl
  rw [closeStmt, if_pos rfl, bind_of_some hsemicolon]
  rfl

/-- Only a semicolon that is due is passed. -/
theorem rest_closeStmt {s : Stmt × Bool} {c : Cursor}
    (h : ¬(s.2 = true ∧ c.kind = .sym .semicolon)) : (closeStmt s c).2.rest = c.rest := by
  obtain ⟨s, _ | _⟩ := s
  · rfl
  · rw [closeStmt_of_ne fun hc => h ⟨rfl, hc⟩]
    split <;> rfl

/-- A statement that succeeds before a semicolon leaves it. -/
theorem rest_ne_nil_of_unclosed {n : Nat} {c c' : Cursor} {s : Stmt × Bool} {us : List Token}
    {semi : Token} (hsemi : semi.kind.ends = true) (hc : c.rest = us ++ [semi])
    (hs : unclosed (.levels n) c = (some s, c')) : c'.rest ≠ [] := by
  obtain ⟨w, hw, ⟨-, hsealed⟩, -⟩ := (inside_unclosed n c).law
  simp only [hs] at hw hsealed
  intro hnil
  have hends := congrArg List.getLast? hw.passes.ends_eq
  simp only [hc, hnil, List.map_append, List.map_cons, List.map_nil, List.append_nil,
    List.getLast?_concat, List.getLast?_map, hsemi] at hends
  obtain ⟨t, ht, htrue⟩ := Option.map_eq_some_iff.mp hends.symm
  rw [hsealed rfl t ht] at htrue
  cases htrue

/-- One statement before a semicolon is read alike before that semicolon and before anything that
starts with it. If it is the last one, it takes the semicolon along. -/
theorem statement_before_semicolon {n k : Nat} {c c' d : Cursor} {s : Stmt} {semi : Token}
    {ys : List Token} (hsemi : semi.kind = .sym .semicolon) (htwin : c.Twin [semi] (semi :: ys) k d)
    (hs : statement (.levels n) c = (some s, c')) (hfaults : c'.faults.length + k < maxErrors) :
    ∃ d', statement (.levels n) d = (some s, d') ∧ d'.faults.length = c'.faults.length + k ∧
      (c'.Twin [semi] (semi :: ys) k d' ∨ c'.rest = [] ∧ d'.rest = ys) := by
  have hb : Behind [semi] (semi :: ys) := ⟨rfl, by rw [firstKind, hsemi]; rfl⟩
  obtain ⟨us, hc, -⟩ := htwin.rest
  rw [statement_eq] at hs ⊢
  rcases hfront : unclosed (.levels n) c with ⟨_ | front, c₁⟩
  · rw [bind_of_none hfront] at hs
    cases hs
  rw [bind_of_some hfront] at hs
  have hne := rest_ne_nil_of_unclosed (by rw [hsemi]; rfl) hc hfront
  have hclose := law_closeStmt law_local front c₁
  obtain ⟨w, hw⟩ := hclose.course hs
  have hle := hw.faults_le
  obtain ⟨d₁, hd₁, htwin₁⟩ := (local_unclosed n c).law.agrees hb htwin hfront
    (List.length_pos_iff.mpr hne) (by omega)
  rw [bind_of_some hd₁]
  by_cases hnil : c'.rest = []
  · -- only a semicolon that is due is passed, so it stood there alone
    obtain ⟨s₀, due⟩ := front
    obtain ⟨rfl, hkind⟩ : due = true ∧ c₁.kind = .sym .semicolon := by
      refine Classical.byContradiction fun hnot => hne ?_
      rw [← rest_closeStmt (s := (s₀, due)) hnot, hs, hnil]
    rw [closeStmt_of_semicolon hkind] at hs
    cases hs
    obtain ⟨us₁, hc₁, hrest⟩ := htwin₁.rest
    cases us₁ with
    | nil =>
      refine ⟨d₁.next, closeStmt_of_semicolon (htwin₁.kind hb ▸ hkind) s, ?_, .inr ⟨hnil, ?_⟩⟩
      · rw [Cursor.next_eq hrest, Cursor.next_eq hc₁]
        exact htwin₁.faults
      · rw [Cursor.next_eq hrest]
    | cons t us₁ =>
      rw [Cursor.next_eq hc₁] at hnil
      exact absurd hnil (by simp)
  · obtain ⟨d', hd', htwin'⟩ := hclose.agrees hb htwin₁ hs (List.length_pos_iff.mpr hnil) hfaults
    exact ⟨d', hd', htwin'.faults, .inl htwin'⟩

/-! ### Lists of statements -/

section
variable {stop : Kind → Bool} {n k : Nat} {c c' d last : Cursor} {as : List Stmt}

theorem goesOn_of_kind (hstop : stop c.kind = false) (hc : c.kind ≠ .eof)
    (hfaults : c.faults.length < maxErrors) : GoesOn stop c := by
  rintro (htrue | heof | hfull)
  · rw [hstop] at htrue
    cases htrue
  · exact hc heof
  · exact absurd (of_decide_eq_true hfull) (Nat.not_le_of_lt hfaults)

theorem forward_statement (n : Nat) (c : Cursor) : Forward c (statement (.levels n)) :=
  (local_statement n c).law.forward

/-- A statement that fails leaves a fault. -/
theorem faults_lt_of_skip (hnone : statement (.levels n) c = (none, c'))
    (h : Turns stop (statement (.levels n)) c'.recover as last) :
    c.faults.length < last.faults.length := by
  obtain ⟨w, hw, -, hfault⟩ := forward_statement n c
  obtain ⟨w', hw'⟩ := h.course (forward_statement n)
  simp only [hnone] at hfault
  have hlt : c.faults.length < c'.faults.length := hfault.resolve_left Bool.false_ne_true
  exact Nat.lt_of_lt_of_le hlt hw'.faults_le

/-- What stands before does not matter to statements without faults. -/
theorem turns_fresh (h : Turns stop (statement (.levels n)) c as last)
    (hclean : last.faults.length = c.faults.length) (s : Span) :
    last = c ∧ as = [] ∨ Turns stop (statement (.levels n)) { c with prev := s } as last := by
  cases h with
  | nil => exact .inl ⟨rfl, rfl⟩
  | read hc hs hlt h => exact .inr (.read hc ((local_statement n c).fresh hs s) hlt h)
  | skip hc hnone hlt h =>
    have hlt := faults_lt_of_skip hnone h
    omega

/-- Statements without faults, of which the last ends with a semicolon, are read alike before
anything else. -/
theorem turns_before_semicolon {semi : Token} {ys : List Token}
    (hsemi : semi.kind = .sym .semicolon) (h : Turns stop (statement (.levels n)) c as last)
    (hclean : last.faults.length = c.faults.length) (hlast : last.rest = [])
    (htwin : c.Twin [semi] (semi :: ys) k d) (hfaults : c.faults.length + k < maxErrors) :
    ∃ d', Turns stop (statement (.levels n)) d as d' ∧ d'.rest = ys ∧
      d'.faults.length = d.faults.length := by
  induction h generalizing d with
  | nil c =>
    obtain ⟨us, hc, -⟩ := htwin.rest
    rw [hlast] at hc
    exact absurd hc (by simp)
  | @read c c' last s as hc hs hlt h ih =>
    obtain ⟨w, hw⟩ := (local_statement n c).law.course hs
    obtain ⟨w', hw'⟩ := h.course (forward_statement n)
    have hle := hw.faults_le
    have hle' := hw'.faults_le
    have hb : Behind [semi] (semi :: ys) := ⟨rfl, by rw [firstKind, hsemi]; rfl⟩
    have hgo := (goesOn_iff htwin hb hfaults stop).mpr hc
    have hlen := htwin.faults
    obtain ⟨d₁, hd₁, hlen₁, htwin₁ | ⟨hc₁, hrest₁⟩⟩ :=
      statement_before_semicolon hsemi htwin hs (by omega)
    · obtain ⟨d', hd', hrest, hlen'⟩ := ih (by omega) hlast htwin₁ (by omega)
      exact ⟨d', .read hgo hd₁ ((local_statement n d).takes hd₁) hd', hrest, by omega⟩
    · -- nothing is left, so that was the last statement
      have heof : c'.kind = .eof := by rw [c'.kind_eq, hc₁]; rfl
      obtain ⟨rfl, rfl⟩ := h.eq_of_not fun hgo => hgo.ne_eof heof
      exact ⟨d₁, .read hgo hd₁ ((local_statement n d).takes hd₁) (.nil d₁), hrest₁, by omega⟩
  | skip hc hnone hlt h =>
    have hlt := faults_lt_of_skip hnone h
    omega

/-- The tokens `ts` are statements of a list, `depth` levels deep, that are read to their end
without a fault. -/
def Clean (stop : Kind → Bool) (n depth : Nat) (ts : List Token) (as : List Stmt) : Prop :=
  ∃ prev last, Turns stop (statement (.levels n)) ⟨ts, prev, depth, []⟩ as last ∧ last.rest = [] ∧
    last.faults = []

variable {depth : Nat} {ts ys : List Token}

/-- Where turns have got to with no new fault. -/
theorem settled_of_turns (h : Turns stop (statement (.levels n)) c as last)
    (hlen : last.faults.length = c.faults.length) :
    last.depth = c.depth ∧ last.faults = c.faults := by
  obtain ⟨w, hw⟩ := h.course (forward_statement n)
  exact ⟨hw.depth, hw.faults_eq hlen⟩

theorem Clean.turns (h : Clean stop n depth ts as) (s : Span) :
    ∃ last, Turns stop (statement (.levels n)) ⟨ts, s, depth, []⟩ as last ∧ last.rest = [] ∧
      last.faults = [] := by
  obtain ⟨prev, last, hturns, hrest, hclean⟩ := h
  rcases turns_fresh hturns (by rw [hclean]) s with ⟨rfl, rfl⟩ | hturns
  · obtain rfl : ts = [] := hrest
    exact ⟨_, .nil _, rfl, rfl⟩
  · exact ⟨last, hturns, hrest, hclean⟩

theorem Clean.before_semicolon (h : Clean stop n depth ts as)
    (hend : ∀ t ∈ ts.getLast?, t.kind = .sym .semicolon) (hd : d.rest = ts ++ ys)
    (hdepth : d.depth = depth) (hfaults : d.faults.length < maxErrors) :
    ∃ d', Turns stop (statement (.levels n)) d as d' ∧ d'.rest = ys ∧ d'.depth = depth ∧
      d'.faults = d.faults := by
  obtain ⟨last, hturns, hlast, hclean⟩ := h.turns d.prev
  obtain rfl | ⟨us, semi, rfl⟩ := List.eq_nil_or_concat' ts
  · obtain ⟨rfl, -⟩ := hturns.eq_of_not fun hgo => hgo.ne_eof rfl
    exact ⟨d, .nil d, hd, hdepth, rfl⟩
  · have htwin : (⟨us ++ [semi], d.prev, depth, []⟩ : Cursor).Twin [semi] (semi :: ys)
        d.faults.length d :=
      ⟨⟨us, rfl, by rw [hd, List.append_assoc]; rfl⟩, rfl, hdepth, (Nat.zero_add _).symm⟩
    obtain ⟨d', hd', hrest, hlen⟩ := turns_before_semicolon (hend semi (by simp)) hturns
      (by rw [hclean]) hlast htwin (by simpa using hfaults)
    obtain ⟨hdepth', hfaults'⟩ := settled_of_turns hd' hlen
    exact ⟨d', hd', hrest, hdepth'.trans hdepth, hfaults'⟩

theorem Clean.before_end (h : Clean stop n depth ts as) (hend : firstKind ys = .eof)
    (hd : d.rest = ts ++ ys) (hdepth : d.depth = depth) (hfaults : d.faults.length < maxErrors) :
    ∃ d', Turns stop (statement (.levels n)) d as d' ∧ d'.rest = ys ∧ d'.depth = depth ∧
      d'.faults = d.faults := by
  obtain ⟨last, hturns, hlast, hclean⟩ := h.turns d.prev
  have htwin : (⟨ts, d.prev, depth, []⟩ : Cursor).Twin [] ys d.faults.length d :=
    ⟨⟨ts, (List.append_nil _).symm, hd⟩, rfl, hdepth, (Nat.zero_add _).symm⟩
  obtain ⟨d', hd', htwin'⟩ := hturns.twin (fun c => (local_statement n c).law) ⟨hend, rfl⟩ htwin
    (Nat.zero_le _) (by rw [hclean]; simpa using hfaults)
  obtain ⟨us, hus, hrest⟩ := htwin'.rest
  have hlen := htwin'.faults
  rw [hclean, List.length_nil, Nat.zero_add] at hlen
  obtain ⟨hdepth', hfaults'⟩ := settled_of_turns hd' hlen
  obtain rfl : us = [] := by simpa [hlast] using hus.symm
  exact ⟨d', hd', hrest, hdepth'.trans hdepth, hfaults'⟩

end

/-! ### Programs -/

section
variable {stop : Kind → Bool} {n : Nat} {c last : Cursor} {ts : List Token} {as : List Stmt}

theorem ofTokens_of_turns (h : Turns (fun _ => false) (statement rules) (.start ts) as last)
    (hend : ¬GoesOn (fun _ => false) last) :
    (Program.ofTokens ts).1.stmts = as ∧ (Program.ofTokens ts).2 = last.faults := by
  have hall := h.eq_allWithin hend (Nat.le_refl _)
  exact ⟨congrArg Prod.fst hall, congrArg (·.2.faults) hall⟩

theorem turns_ofTokens (ts : List Token) :
    ∃ last, Turns (fun _ => false) (statement rules) (.start ts) (Program.ofTokens ts).1.stmts
        last ∧ ¬GoesOn (fun _ => false) last ∧ (Program.ofTokens ts).2 = last.faults := by
  have hitem (c : Cursor) : Taking Forward c (statement rules) :=
    taking_statement law_inside (obey_levels law_inside (maxNesting + 1)) c
  obtain ⟨hturns, hend⟩ :=
    turns_allWithin (fun _ => false) hitem ts.length (.start ts) (Nat.le_refl _)
  exact ⟨_, hturns, hend, rfl⟩

/-- Where no token is the end, reading with few faults goes to the end of the list. -/
theorem rest_eq_nil (h : Turns (fun _ => false) (statement (.levels n)) c as last)
    (hend : ¬GoesOn (fun _ => false) last) (hts : ∀ t ∈ c.rest, t.kind ≠ .eof)
    (hfaults : last.faults.length < maxErrors) : last.rest = [] := by
  obtain ⟨w, hw⟩ := h.course (forward_statement n)
  have hrest := hw.passes.ne_eof hts
  cases hlast : last.rest with
  | nil => rfl
  | cons t us =>
    refine absurd (goesOn_of_kind rfl ?_ hfaults) hend
    rw [last.kind_eq, hlast]
    exact hrest t (hlast ▸ .head _)

/-- A program without faults is clean. -/
theorem clean_of_ofTokens (hts : ∀ t ∈ ts, t.kind ≠ .eof) (h : (Program.ofTokens ts).2 = []) :
    Clean (fun _ => false) (maxNesting + 1) 0 ts (Program.ofTokens ts).1.stmts := by
  obtain ⟨last, hturns, hend, hlast⟩ := turns_ofTokens ts
  rw [h] at hlast
  have hfew : last.faults.length < maxErrors := by
    rw [← hlast]
    decide
  exact ⟨_, last, hturns, rest_eq_nil hturns hend hts hfew, hlast.symm⟩

end

end Grammar
end CarvFront

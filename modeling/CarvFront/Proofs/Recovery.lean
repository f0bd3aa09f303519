import CarvFront.Proofs.CleanCode

/-! After code that makes no sense, reading goes on behind the next semicolon, and nothing that
stands before or behind is lost. -/
namespace CarvFront

/-- Tokens that neither end nor begin a statement, nor open or close a block. -/
def Kind.isFiller : Kind → Bool
  | .sym .semicolon | .sym .lbrace | .sym .rbrace | .eof => false
  | k => !k.startsStatement

/-- Words that begin a statement with a semicolon behind it. -/
def Kind.leads : Kind → Bool
  | .word .letKw | .word .constKw | .word .returnKw | .word .breakKw | .word .continueKw
  | .word .requireKw => true
  | _ => false

/-- Tokens in any order, none of which ends a statement, opens or closes a block or begins a
statement; the first one may begin a statement that ends with a semicolon. -/
def Garbage : List Token → Prop
  | [] => True
  | t :: g => (t.kind.isFiller = true ∨ t.kind.leads = true) ∧ ∀ u ∈ g, u.kind.isFiller = true

instance : DecidablePred Garbage
  | [] => .isTrue trivial
  | _ :: _ => inferInstanceAs (Decidable (_ ∧ _))

theorem Kind.isFiller_iff {k : Kind} : k.isFiller = true ↔
    k ≠ .sym .semicolon ∧ k ≠ .sym .lbrace ∧ k ≠ .sym .rbrace ∧ k ≠ .eof ∧
      k.startsStatement = false := by
  unfold isFiller
  split <;> simp_all

theorem Kind.isFiller_of_splits {k k' : Kind} (h : k.Splits k') : k'.isFiller = true := by
  cases h <;> rfl

/-- Of garbage nothing ends a statement or opens one that has others in it. -/
theorem Kind.closed_of_garbage {k : Kind} (h : k.isFiller = true ∨ k.leads = true) :
    k.ends = false ∧ k.opens = false ∧ k ≠ .sym .rbrace := by
  cases k with
  | word w =>
    cases w <;> simp_all [isFiller, leads, ends, opens, startsStatement, Keyword.startsStatement]
  | sym s => cases s <;> simp_all [isFiller, leads, ends, opens, startsStatement]
  | _ => simp_all [isFiller, leads, ends, opens, startsStatement]

namespace Garbage
variable {g g' w ts ys : List Token} {semi : Token}

theorem of_filler (h : ∀ t ∈ g, t.kind.isFiller = true) : Garbage g := by
  cases g with
  | nil => trivial
  | cons t g => exact ⟨.inl (h t (.head _)), fun u hu => h u (.tail _ hu)⟩

/-- What is left of garbage is garbage. -/
theorem passes (h : Passes g w g') (hg : Garbage g) : Garbage g' := by
  induction h with
  | here => exact hg
  | past _ _ ih => exact ih (of_filler hg.2)
  | part hk _ ih => exact ih ⟨.inl (Kind.isFiller_of_splits hk), hg.2⟩

/-- What stands inside a statement does not get past garbage. -/
theorem confined (hg : Garbage g) (hsemi : semi.kind = .sym .semicolon)
    (h : Passes (g ++ semi :: ys) w ts) (hw : Framed w) :
    ∃ g', ts = g' ++ semi :: ys ∧ Passes g w g' := by
  generalize hts : g ++ semi :: ys = rest at h
  induction h generalizing g with
  | here => exact ⟨g, hts.symm, .here g⟩
  | @past t rest w ts ht h ih =>
    cases g with
    | nil =>
      cases hts
      rw [Framed, hsemi] at hw
      rcases hw with hopens | ⟨hends, -⟩
      · cases hopens
      · cases hends
    | cons u g =>
      cases hts
      obtain ⟨-, hopens, -⟩ := Kind.closed_of_garbage hg.1
      rcases hw with hopens' | ⟨-, hw⟩
      · rw [hopens] at hopens'
        cases hopens'
      · obtain ⟨g', rfl, hpass⟩ := ih (of_filler hg.2) hw rfl
        exact ⟨g', rfl, .past ht hpass⟩
  | @part t rest w ts k hk h ih =>
    cases g with
    | nil =>
      cases hts
      rw [hsemi] at hk
      cases hk
    | cons u g =>
      cases hts
      have hpart : Garbage ({ t with kind := k } :: g) := ⟨.inl (Kind.isFiller_of_splits hk), hg.2⟩
      obtain ⟨g', rfl, hpass⟩ := ih hpart hw rfl
      exact ⟨g', rfl, .part hk hpass⟩

theorem firstKind_ne (hg : Garbage g) (hsemi : semi.kind = .sym .semicolon) :
    firstKind (g ++ semi :: ys) ≠ .eof := by
  cases g with
  | nil =>
    change semi.kind ≠ _
    rw [hsemi]
    nofun
  | cons t g => exact Kind.ne_eof_of_ends (Kind.closed_of_garbage hg.1).1

theorem skipTo_filler (hg : ∀ t ∈ g, t.kind.isFiller = true) (hsemi : semi.kind = .sym .semicolon)
    (moved : Bool) (prev : Span) :
    Cursor.skipTo moved (g ++ semi :: ys) prev = (ys, semi.span) := by
  induction g generalizing moved prev with
  | nil => rw [List.nil_append, Cursor.skipTo, if_neg (by simp [hsemi]), if_pos hsemi]
  | cons t g ih =>
    obtain ⟨hne, -, hbrace, heof, hstart⟩ := Kind.isFiller_iff.mp (hg t (.head _))
    rw [List.cons_append, Cursor.skipTo, if_neg heof, if_neg hne, if_neg (by simp [hstart, hbrace]),
      if_neg hbrace]
    exact ih (fun t ht => hg t (.tail _ ht)) true t.span

/-- Recovery goes on behind the semicolon. -/
theorem skipTo (hg : Garbage g) (hsemi : semi.kind = .sym .semicolon) (prev : Span) :
    Cursor.skipTo false (g ++ semi :: ys) prev = (ys, semi.span) := by
  cases g with
  | nil => exact skipTo_filler (by simp) hsemi false prev
  | cons t g =>
    obtain ⟨hends, -, hbrace⟩ := Kind.closed_of_garbage hg.1
    rw [List.cons_append, Cursor.skipTo, if_neg (Kind.ne_eof_of_ends hends), if_neg fun h => ?_,
      if_neg (by simp), if_neg hbrace]
    · exact skipTo_filler hg.2 hsemi true t.span
    · rw [h] at hends
      cases hends

end Garbage

/-- All new faults are at tokens of `ts`. -/
def Cursor.Finds (c : Cursor) (ts : List Token) (c' : Cursor) : Prop :=
  ∃ new, c'.faults = c.faults ++ new ∧ ∀ f ∈ new, f.span ∈ ts.map Token.span

namespace Cursor
variable {c c₁ c₂ : Cursor} {g g₁ w ys : List Token} {semi : Token}

theorem Finds.trans (h : c.Finds g c₁) (h' : c₁.Finds g₁ c₂)
    (hsub : g₁.map Token.span ⊆ g.map Token.span) : c.Finds g c₂ := by
  obtain ⟨new, hnew, hspans⟩ := h
  obtain ⟨new', hnew', hspans'⟩ := h'
  refine ⟨new ++ new', by rw [hnew', hnew, List.append_assoc], fun f hf => ?_⟩
  rcases List.mem_append.mp hf with hf | hf
  · exact hspans f hf
  · exact hsub (hspans' f hf)

/-- Before the semicolon all faults are at tokens up to it. -/
theorem Course.finds (h : c.Course w c₁) (hc : c.rest = g ++ semi :: ys)
    (hc₁ : c₁.rest = g₁ ++ semi :: ys) :
    c.Finds (g ++ [semi]) c₁ ∧ (g₁ ++ [semi]).map Token.span ⊆ (g ++ [semi]).map Token.span := by
  have hspans := h.passes.spans_eq
  rw [hc, hc₁, List.map_append, List.map_append, ← List.append_assoc] at hspans
  have hg := List.append_cancel_right hspans
  have hsub : (g₁ ++ [semi]).map Token.span ⊆ (g ++ [semi]).map Token.span := by
    rw [List.map_append, List.map_append, hg, List.append_assoc]
    exact List.subset_append_right _ _
  obtain ⟨new, hnew, hfound⟩ := h.faults
  refine ⟨⟨new, hnew, fun f hf => ?_⟩, hsub⟩
  rcases hfound f hf with hmem | hspan
  · rw [List.map_append, hg]
    exact List.mem_append_left _ (List.mem_append_left _ hmem)
  · refine hsub ?_
    rw [hspan, c₁.span_eq, hc₁]
    cases g₁ with
    | nil => exact .head _
    | cons t g₁ => exact .head _

end Cursor

namespace Grammar
open CarvFront.Parser
variable {stop : Kind → Bool} {n : Nat} {c c' d : Cursor} {as : List Stmt}

/-- Reading from here on ends before there are too many faults. -/
def Mild (stop : Kind → Bool) (n : Nat) (c : Cursor) : Prop :=
  ∀ as last, Turns stop (statement (.levels n)) c as last → ¬GoesOn stop last →
    last.faults.length < maxErrors

theorem Mild.of_turns (h : Mild stop n c) (hturns : Turns stop (statement (.levels n)) c as c') :
    Mild stop n c' :=
  fun bs last hlast => h (as ++ bs) last (hturns.trans hlast)

theorem Mild.faults_lt (h : Mild stop n c) : c.faults.length < maxErrors := by
  refine Nat.lt_of_not_le fun hle => ?_
  have hfull : ¬GoesOn stop c := fun hgo => hgo (.inr (.inr (decide_eq_true hle)))
  exact absurd (h [] c (.nil c) hfull) (Nat.not_lt_of_le hle)

section
variable {g ys : List Token} {semi : Token} {c₁ : Cursor}

/-- A statement is not read past garbage. -/
theorem confined_unclosed (hg : Garbage g) (hsemi : semi.kind = .sym .semicolon)
    (hc : c.rest = g ++ semi :: ys) {res : Option (Stmt × Bool)}
    (hres : unclosed (.levels n) c = (res, c₁)) :
    ∃ g₁, c₁.rest = g₁ ++ semi :: ys ∧ Garbage g₁ := by
  obtain ⟨w, hw, ⟨hframed, -⟩, -⟩ := (inside_unclosed n c).law
  have hpasses := hw.passes
  rw [hres, hc] at hpasses
  obtain ⟨g₁, hrest, hg₁⟩ := hg.confined hsemi hpasses hframed
  exact ⟨g₁, hrest, hg.passes hg₁⟩

/-- Where a statement fails, reading goes on behind the semicolon. -/
theorem skip_garbage (hg : Garbage g) (hsemi : semi.kind = .sym .semicolon)
    (hc : c.rest = g ++ semi :: ys) (hgo : GoesOn stop c)
    (hnone : unclosed (.levels n) c = (none, c₁)) :
    Turns stop (statement (.levels n)) c [] c₁.recover ∧ c₁.recover.rest = ys ∧
      c.Finds (g ++ [semi]) c₁.recover := by
  obtain ⟨g₁, hrest, hg₁⟩ := confined_unclosed hg hsemi hc hnone
  obtain ⟨w, hw⟩ := (local_unclosed n c).law.course hnone
  have hfails : statement (.levels n) c = (none, c₁) := by rw [statement_eq, bind_of_none hnone]
  have hlt := length_recover_lt (forward_statement n c) hgo.ne_eof hfails
  refine ⟨.skip hgo hfails hlt (.nil _), ?_, (hw.finds hc hrest).1⟩
  rw [Cursor.recover, hrest, hg₁.skipTo hsemi]

theorem closeStmt_eq (s : Stmt × Bool) (c : Cursor) :
    closeStmt s c = (some s.1, (closeStmt s c).2) := by
  obtain ⟨s, _ | _⟩ := s
  · rfl
  · by_cases hc : c.kind = .sym .semicolon
    · rw [closeStmt_of_semicolon hc]
    · rw [closeStmt_of_ne hc]

/-- A semicolon stands only behind the garbage. -/
theorem next_of_semicolon (hg : Garbage g) (hc : c.rest = g ++ semi :: ys)
    (hkind : c.kind = .sym .semicolon) : c.next.rest = ys ∧ c.next.faults = c.faults := by
  cases g with
  | nil =>
    rw [Cursor.next_eq hc]
    exact ⟨rfl, rfl⟩
  | cons t g =>
    obtain ⟨hends, -⟩ := Kind.closed_of_garbage hg.1
    rw [c.kind_eq, hc] at hkind
    change t.kind = _ at hkind
    rw [hkind] at hends
    cases hends

/-- Two cursors before the same garbage: one goes on with `ys` behind the semicolon, the other has
nothing behind it. -/
structure Astray (n : Nat) (semi : Token) (ys : List Token) (semi' : Token) (g : List Token)
    (c d : Cursor) : Prop where
  garbage : Garbage g
  rest : c.rest = g ++ semi :: ys
  twin : c.Twin (semi :: ys) [semi'] 0 { d with prev := c.prev }
  mild : Mild (fun _ => false) n c

namespace Astray
variable {semi' : Token} (hsemi : semi.kind = .sym .semicolon)
  (hsemi' : semi'.kind = .sym .semicolon) (h : Astray n semi ys semi' g c d)
include h

theorem rest_right : d.rest = g ++ [semi'] := by
  obtain ⟨us, hus, hrest⟩ := h.twin.rest
  rwa [List.append_cancel_right (h.rest.symm.trans hus)]

include hsemi

theorem goesOn : GoesOn (fun _ => false) c := by
  refine goesOn_of_kind rfl ?_ h.mild.faults_lt
  rw [c.kind_eq, h.rest]
  exact h.garbage.firstKind_ne hsemi

include hsemi'

omit h in
theorem behind : Behind (semi :: ys) [semi'] :=
  ⟨hsemi'.trans hsemi.symm, by rw [firstKind, hsemi]; rfl⟩

theorem goesOn_right : GoesOn (fun _ => false) d :=
  (goesOn_iff h.twin (behind hsemi hsemi') h.mild.faults_lt _).mpr (h.goesOn hsemi)

/-- What is read does not depend on what stands behind. -/
theorem unclosed_right {res : Option (Stmt × Bool)}
    (hres : unclosed (.levels n) c = (res, c₁)) (hfaults : c₁.faults.length < maxErrors) :
    ∃ d₁, unclosed (.levels n) { d with prev := c.prev } = (res, d₁) ∧
      c₁.Twin (semi :: ys) [semi'] 0 d₁ := by
  obtain ⟨g₁, hrest₁, -⟩ := confined_unclosed h.garbage hsemi h.rest hres
  refine (local_unclosed n c).law.agrees (behind hsemi hsemi') h.twin hres ?_ hfaults
  rw [hrest₁, List.length_append]
  exact Nat.le_add_left _ _

/-- Where one fails the other does. -/
theorem skip (hnone : unclosed (.levels n) c = (none, c₁)) :
    ∃ c' d', Turns (fun _ => false) (statement (.levels n)) c [] c' ∧
      Turns (fun _ => false) (statement (.levels n)) d [] d' ∧ c.Finds (g ++ [semi]) c' ∧
      c'.rest = ys ∧ d'.rest = [] := by
  obtain ⟨hturns, hrest, hfinds⟩ := skip_garbage h.garbage hsemi h.rest (h.goesOn hsemi) hnone
  obtain ⟨d₁, hd₁, -⟩ := h.unclosed_right hsemi hsemi' hnone (h.mild.of_turns hturns).faults_lt
  rcases hfront : unclosed (.levels n) d with ⟨_ | front, d₂⟩
  · obtain ⟨hturns', hrest', -⟩ :=
      skip_garbage h.garbage hsemi' h.rest_right (h.goesOn_right hsemi hsemi') hfront
    exact ⟨_, _, hturns, hturns', hfinds, hrest, hrest'⟩
  · -- what stands before makes no difference to success, so none to failure
    have hsome := (local_unclosed n d).fresh hfront c.prev
    rw [hd₁] at hsome
    cases hsome

omit h in
/-- Behind a statement either both take the semicolon or both stay. -/
theorem closeStmt_right (hg : Garbage g) (hc : c.rest = g ++ semi :: ys)
    (htwin : c.Twin (semi :: ys) [semi'] 0 d) (front : Stmt × Bool)
    (hfaults : (closeStmt front c).2.faults.length < maxErrors) :
    ((closeStmt front c).2.rest = ys ∧ (closeStmt front c).2.faults = c.faults ∧
      (closeStmt front d).2.rest = []) ∨
    (closeStmt front c).2.rest = c.rest ∧
      (closeStmt front c).2.Twin (semi :: ys) [semi'] 0 (closeStmt front d).2 := by
  obtain ⟨us, hus, hd⟩ := htwin.rest
  obtain rfl : g = us := List.append_cancel_right (hc.symm.trans hus)
  by_cases hdue : front.2 = true ∧ c.kind = .sym .semicolon
  · obtain ⟨s, due⟩ := front
    obtain ⟨rfl, hkind⟩ := hdue
    have hkind' := (htwin.kind (behind hsemi hsemi')).trans hkind
    rw [closeStmt_of_semicolon hkind, closeStmt_of_semicolon hkind']
    obtain ⟨hrest, hsame⟩ := next_of_semicolon hg hc hkind
    exact .inl ⟨hrest, hsame, (next_of_semicolon hg hd hkind').1⟩
  · have hrest := rest_closeStmt hdue
    obtain ⟨d', hd', htwin'⟩ := (law_closeStmt law_local front c).agrees (behind hsemi hsemi') htwin
      (closeStmt_eq front c) (by rw [hrest, hc, List.length_append]; omega) hfaults
    rw [hd']
    exact .inr ⟨hrest, htwin'⟩

/-- Where one reads a statement the other reads the same, and either that ends with the semicolon or
there is less garbage before it. -/
theorem read {front : Stmt × Bool} (hfront : unclosed (.levels n) c = (some front, c₁)) :
    ∃ c' d', Turns (fun _ => false) (statement (.levels n)) c [front.1] c' ∧
      Turns (fun _ => false) (statement (.levels n)) d [front.1] d' ∧ c.Finds (g ++ [semi]) c' ∧
      (c'.rest = ys ∧ d'.rest = [] ∨ ∃ g', Astray n semi ys semi' g' c' d' ∧
        g'.length < g.length ∧ (g' ++ [semi]).map Token.span ⊆ (g ++ [semi]).map Token.span) := by
  have hs : statement (.levels n) c = (some front.1, (closeStmt front c₁).2) := by
    rw [statement_eq, bind_of_some hfront, closeStmt_eq]
  have hturns := Turns.read (h.goesOn hsemi) hs ((local_statement n c).takes hs) (.nil _)
  have hmild := h.mild.of_turns hturns
  obtain ⟨w, hw⟩ := (local_unclosed n c).law.course hfront
  obtain ⟨w', hw'⟩ := (law_closeStmt law_local front c₁).course (closeStmt_eq front c₁)
  obtain ⟨g₁, hrest₁, hg₁⟩ := confined_unclosed h.garbage hsemi h.rest hfront
  obtain ⟨d₁, hd₁, htwin₁⟩ := h.unclosed_right hsemi hsemi' hfront
    (Nat.lt_of_le_of_lt hw'.faults_le hmild.faults_lt)
  have hd : statement (.levels n) d = (some front.1, (closeStmt front d₁).2) := by
    rw [statement_eq, bind_of_some ((local_unclosed n _).fresh hd₁ d.prev), closeStmt_eq]
  have hturns' :=
    Turns.read (h.goesOn_right hsemi hsemi') hd ((local_statement n d).takes hd) (.nil _)
  refine ⟨_, _, hturns, hturns', ?_⟩
  rcases closeStmt_right hsemi hsemi' hg₁ hrest₁ htwin₁ front hmild.faults_lt with
    ⟨hrest, hsame, hrest'⟩ | ⟨hrest, htwin⟩
  · obtain ⟨new, hnew, hspans⟩ := (hw.finds h.rest hrest₁).1
    exact ⟨⟨new, hsame.trans hnew, hspans⟩, .inl ⟨hrest, hrest'⟩⟩
  · obtain ⟨hfinds, hsub⟩ := (hw.trans hw').finds h.rest (hrest.trans hrest₁)
    refine ⟨hfinds, .inr ⟨g₁, ⟨hg₁, hrest.trans hrest₁, ?_, hmild⟩, ?_, hsub⟩⟩
    · exact ⟨htwin.rest, rfl, htwin.depth, htwin.faults⟩
    have htakes := (local_unclosed n c).takes hfront
    rw [h.rest, hrest₁, List.length_append, List.length_append] at htakes
    omega

/-- Garbage is read up to its semicolon, with the same statements whatever stands behind. -/
theorem turns :
    ∃ ss c' d', Turns (fun _ => false) (statement (.levels n)) c ss c' ∧
      Turns (fun _ => false) (statement (.levels n)) d ss d' ∧ c.Finds (g ++ [semi]) c' ∧
      c'.rest = ys ∧ d'.rest = [] := by
  induction hlen : g.length using Nat.strongRecOn generalizing g c d with
  | ind m ih =>
  rcases hfront : unclosed (.levels n) c with ⟨_ | front, c₁⟩
  · obtain ⟨c', d', hskip⟩ := h.skip hsemi hsemi' hfront
    exact ⟨[], c', d', hskip⟩
  · obtain ⟨c₂, d₂, hc₂, hd₂, hfinds, ⟨hrest, hrest'⟩ | ⟨g', h', hlt, hsub⟩⟩ :=
      h.read hsemi hsemi' hfront
    · exact ⟨_, c₂, d₂, hc₂, hd₂, hfinds, hrest, hrest'⟩
    · obtain ⟨ss, c', d', hc', hd', hfinds', hrest⟩ := ih g'.length (hlen ▸ hlt) h' rfl
      exact ⟨_, c', d', hc₂.trans hc', hd₂.trans hd', hfinds.trans hfinds' hsub, hrest⟩

end Astray
end

/-- A program with few faults never comes to too many. -/
theorem mild_start {ts : List Token} (h : (Program.ofTokens ts).2.length < maxErrors) :
    Mild (fun _ => false) (maxNesting + 1) (.start ts) := by
  intro as last hturns hend
  rwa [← (ofTokens_of_turns hturns hend).2]

end Grammar

open CarvFront.Grammar CarvFront.Parser

/-- The statements that garbage gives before a semicolon. -/
def Program.salvaged (g : List Token) : List Stmt :=
  (Program.ofTokens (g ++ [⟨.sym .semicolon, .point .first⟩])).1.stmts

/-- Garbage between two programs that are right costs neither of them a statement, and all faults
are at its tokens or at the semicolon behind it. -/
theorem Program.resumes_behind_semicolon {ts g us : List Token} {semi eof : Token}
    (hts : ∀ t ∈ ts, t.kind ≠ .eof) (hright : (Program.ofTokens ts).2 = [])
    (hend : ∀ t ∈ ts.getLast?, t.kind = .sym .semicolon) (hg : Garbage g)
    (hsemi : semi.kind = .sym .semicolon) (hus : ∀ t ∈ us, t.kind ≠ .eof)
    (hright' : (Program.ofTokens us).2 = []) (heof : eof.kind = .eof)
    (hfew : (Program.ofTokens (ts ++ g ++ semi :: us ++ [eof])).2.length < maxErrors) :
    (Program.ofTokens (ts ++ g ++ semi :: us ++ [eof])).1.stmts =
      (Program.ofTokens ts).1.stmts ++ Program.salvaged g ++ (Program.ofTokens us).1.stmts ∧
    ∀ f ∈ (Program.ofTokens (ts ++ g ++ semi :: us ++ [eof])).2,
      f.span ∈ (g ++ [semi]).map Token.span := by
  have hmild := mild_start hfew
  have hall : ts ++ g ++ semi :: us ++ [eof] = ts ++ (g ++ semi :: (us ++ [eof])) := by simp
  obtain ⟨c₁, hc₁, hrest₁, hdepth₁, hfaults₁⟩ := (clean_of_ofTokens hts hright).before_semicolon
    (d := .start (ts ++ g ++ semi :: us ++ [eof])) hend hall rfl hmild.faults_lt
  have hmild₁ := hmild.of_turns hc₁
  -- the garbage is read as it is on its own
  have hastray : Astray (maxNesting + 1) semi (us ++ [eof]) ⟨.sym .semicolon, .point .first⟩ g c₁
      (.start (g ++ [⟨.sym .semicolon, .point .first⟩])) := by
    refine ⟨hg, hrest₁, ⟨⟨g, hrest₁, rfl⟩, rfl, hdepth₁.symm, ?_⟩, hmild₁⟩
    rw [hfaults₁]
    rfl
  obtain ⟨ss, c₂, d₂, hc₂, hd₂, hfinds, hrest₂, hrest₂'⟩ := hastray.turns hsemi rfl
  have hsalvaged : Program.salvaged g = ss := by
    refine (ofTokens_of_turns hd₂ fun hgo => hgo.ne_eof ?_).1
    rw [d₂.kind_eq, hrest₂']
    rfl
  obtain ⟨w, hw⟩ := hc₂.course (forward_statement _)
  have hend₃ : firstKind [eof] = .eof := heof
  obtain ⟨c₃, hc₃, hrest₃, -, hfaults₃⟩ := (clean_of_ofTokens hus hright').before_end hend₃ hrest₂
    (hw.depth.trans hdepth₁) (hmild₁.of_turns hc₂).faults_lt
  have hturns := (hc₁.trans hc₂).trans hc₃
  obtain ⟨hstmts, hfaults⟩ := ofTokens_of_turns hturns fun hgo => hgo.ne_eof <| by
    rw [c₃.kind_eq, hrest₃]
    exact heof
  refine ⟨by rw [hstmts, hsalvaged], fun f hf => ?_⟩
  obtain ⟨new, hnew, hspans⟩ := hfinds
  rw [hfaults, hfaults₃, hnew, hfaults₁] at hf
  exact hspans f hf

/-- Tokens in one line, each at a place of its own. -/
def inLine (column : Nat) (ks : List Kind) : List Token :=
  ks.mapIdx fun i k => ⟨k, .point ⟨1, column + i⟩⟩

/-- `let a = 1;` -/
def Program.before : List Token :=
  inLine 1 [.word .letKw, .ident "a", .sym .eq, .int 1, .sym .semicolon]

/-- `let x = b) + c d`, of which the binding is read and the rest is not. -/
def Program.mistyped : List Token :=
  inLine 6 [.word .letKw, .ident "x", .sym .eq, .ident "b", .sym .rparen, .sym .plus, .ident "c",
    .ident "d"]

/-- `a = 2` -/
def Program.after : List Token :=
  inLine 15 [.ident "a", .sym .eq, .int 2]

theorem Program.resumes_behind_mistyped :
    let semi : Token := ⟨.sym .semicolon, .point ⟨1, 14⟩⟩
    let all := before ++ mistyped ++ semi :: after ++ [⟨.eof, .point ⟨1, 18⟩⟩]
    (Program.salvaged mistyped).length = 1 ∧ (Program.ofTokens all).2.length = 2 ∧
      (Program.ofTokens all).1.stmts = (Program.ofTokens before).1.stmts ++
        Program.salvaged mistyped ++ (Program.ofTokens after).1.stmts ∧
      ∀ f ∈ (Program.ofTokens all).2, f.span ∈ (mistyped ++ [semi]).map Token.span := by
  refine ⟨by decide +kernel, by decide +kernel, ?_⟩
  exact Program.resumes_behind_semicolon (by decide) (by decide +kernel) (by decide) (by decide) rfl
    (by decide) (by decide +kernel) rfl (by decide +kernel)

end CarvFront

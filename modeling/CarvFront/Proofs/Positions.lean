import Mathlib.Data.List.TakeWhile
import Mathlib.Order.Lattice
import CarvFront.Source
import CarvFront.Proofs.Lexemes
import CarvFront.Proofs.Nesting

/-! The places of tokens. A scanner always knows where it is: its line and column are those of the
text it has read. So every token starts where its first character stands, and where nothing is wrong
a token ends at its last. -/
namespace CarvFront
variable {before : List Char}

/-! ### Counting lines and columns -/

namespace Position

theorem le_iff {a b : Position} :
    a ≤ b ↔ a.line < b.line ∨ a.line = b.line ∧ a.column ≤ b.column :=
  Iff.rfl

/-- Of two places one is in front of the other. -/
instance linearOrder : LinearOrder Position where
  le_refl a := .inr ⟨rfl, Nat.le_refl _⟩
  le_trans a b c hab hbc := by
    rw [le_iff] at *
    omega
  le_antisymm a b hab hba := by
    obtain ⟨line, column⟩ := a
    obtain ⟨line', column'⟩ := b
    simp only [le_iff, mk.injEq] at *
    omega
  le_total a b := by
    rw [le_iff, le_iff]
    omega
  toDecidableLE := inferInstance
  toDecidableEq := inferInstance

theorem lt_iff {a b : Position} :
    a < b ↔ a.line < b.line ∨ a.line = b.line ∧ a.column < b.column := by
  rw [lt_iff_not_ge, le_iff]
  omega

theorem lt_step (p : Position) (c : Char) : p < p.step c := by
  rw [lt_iff, step]
  split
  · exact .inl (Nat.lt_succ_self _)
  · exact .inr ⟨rfl, Nat.lt_succ_self _⟩

theorem le_advance (p : Position) (cs : List Char) : p ≤ p.advance cs := by
  induction cs generalizing p with
  | nil => exact le_rfl
  | cons c cs ih => exact le_trans (le_of_lt (p.lt_step c)) (ih (p.step c))

/-- The place right behind a text: one line more than it has newlines, and one column more than it
has characters behind the last of them. -/
def behind (cs : List Char) : Position :=
  ⟨cs.count '\n' + 1, (cs.reverse.takeWhile (· != '\n')).length + 1⟩

theorem behind_concat (cs : List Char) (c : Char) : behind (cs ++ [c]) = (behind cs).step c := by
  by_cases hc : c = '\n'
  · simp [behind, step, hc]
  · simp [behind, step, hc]

/-- Going on from behind a text leads behind the longer text. -/
theorem advance_behind (as bs : List Char) : (behind as).advance bs = behind (as ++ bs) := by
  induction bs generalizing as with
  | nil =>
    rw [List.append_nil]
    rfl
  | cons b bs ih =>
    have hstep : (behind as).advance (b :: bs) = (behind (as ++ [b])).advance bs := by
      rw [behind_concat]
      rfl
    rw [hstep, ih, List.append_assoc]
    rfl

theorem behind_le_append (as bs : List Char) : behind as ≤ behind (as ++ bs) :=
  advance_behind as bs ▸ le_advance _ bs

/-- What ends in front of the next place ends with its last character, unless that is a newline. -/
theorem upTo_behind {as cs : List Char} (hne : cs ≠ []) (hline : '\n' ∉ cs) :
    Span.upTo (behind as) (behind (as ++ cs)) = ⟨behind as, behind (as ++ cs.dropLast)⟩ := by
  obtain ⟨ds, c, rfl⟩ : ∃ ds c, cs = ds ++ [c] := ⟨_, _, (List.dropLast_concat_getLast hne).symm⟩
  have hc : c ≠ '\n' := fun h => hline (by simp [h])
  rw [List.dropLast_concat, ← List.append_assoc, behind_concat, step, if_neg hc, Span.upTo]
  have hcolumn : max ((behind (as ++ ds)).column + 1 - 1) 1 = (behind (as ++ ds)).column := by
    rw [Nat.add_sub_cancel]
    exact Nat.max_eq_left (Nat.succ_le_succ (Nat.zero_le _))
  dsimp only
  rw [hcolumn]

end Position

namespace Source

end Source

/-! ### Where tokens stand -/

/-- Whether a token goes on with a text behind one of its holes. -/
def Kind.continuesText : Kind → Bool
  | .stringPart _ | .stringEnd _ => true
  | _ => false

/-- A token stands in a text behind `before`, over the characters `cs`. What goes on with a text
stands right behind the brace that closes its hole. -/
structure Token.Stands (text before cs : List Char) (t : Token) : Prop where
  here : before ++ cs <+: text
  opens : t.kind.Opens cs
  closed : t.kind.continuesText → before.getLast? = some '}'
  span : t.span = if t.kind = .eof then .point (.behind before)
    else .upTo (.behind before) (.behind (before ++ cs))

theorem Token.Stands.start {text cs : List Char} {t : Token} (h : t.Stands text before cs) :
    t.span.start = .behind before := by
  rw [h.span]
  split <;> rfl

namespace Scanner
variable {cs : List Char} {l : Lexeme}

/-- A scanner of a text is behind `before`. Where it is in a string, a hole has just been closed; a
token that waits is the `${` it has read last. -/
structure At (text before : List Char) (s : Scanner) : Prop where
  here : text = before ++ s.reader.rest
  pos : s.reader.pos = .behind before
  closed : s.modes.head? = some .text → before.getLast? = some '}'
  outer : .text ∉ s.modes.tail
  pending : ∀ t ∈ s.pending, t.kind = .holeStart ∧
    ∃ front, before = front ++ ['$', '{'] ∧ t.span = .upTo (.behind front) (.behind before)

/-- A scanner is outside strings, and nothing waits. -/
structure InCode (s : Scanner) : Prop where
  pending : s.pending = []
  modes : s.modes.head? ≠ some .text

theorem at_start (text : String) : (start text).At text.toList [] where
  here := rfl
  pos := rfl
  closed h := by cases h
  outer := List.not_mem_nil
  pending t h := by cases h

variable {text before : List Char} {s next last : Scanner} {t : Token}

section
variable (h : s.At text before)
include h

theorem At.stands_pending (ht : t ∈ s.pending) :
    ∃ front, before = front ++ ['$', '{'] ∧ t.kind = .holeStart ∧
      t.Stands text front ['$', '{'] := by
  obtain ⟨hkind, front, rfl, hspan⟩ := h.pending t ht
  refine ⟨front, rfl, hkind, ⟨s.reader.rest, h.here.symm⟩, ?_, ?_, ?_⟩
  · rw [hkind]
    rfl
  · rw [hkind]
    intro hcontinues
    cases hcontinues
  · rw [hspan, if_neg (by rw [hkind]; simp)]

/-- Passing over characters outside strings. -/
theorem At.pass {gap : List Char} (hs : s.InCode) (hreader : s.reader.Passes gap next.reader)
    (hmodes : next.modes = s.modes) (hpending : next.pending = s.pending) :
    next.At text (before ++ gap) ∧ next.InCode := by
  constructor
  · constructor
    · rw [List.append_assoc, ← hreader.rest]
      exact h.here
    · rw [hreader.pos, h.pos, Position.advance_behind]
    · intro htext
      exact absurd (hmodes ▸ htext) hs.modes
    · rw [hmodes]
      exact h.outer
    · rw [hpending, hs.pending]
      intro t ht
      cases ht
  · exact ⟨hpending.trans hs.pending, hmodes ▸ hs.modes⟩

theorem At.skip (hs : s.InCode) : ∃ gap, s.skip.At text (before ++ gap) ∧ s.skip.InCode := by
  obtain ⟨gap, hgap⟩ := s.reader.passes_skip
  exact ⟨gap, h.pass hs hgap rfl rfl⟩

theorem At.reject (hs : s.InCode) (c : Char) :
    ∃ gap, (s.reject c).At text (before ++ gap) ∧ (s.reject c).InCode :=
  ⟨_, h.pass hs (.advance s.reader 1) rfl rfl⟩

theorem At.close : s.close.At text before := by
  unfold Scanner.close
  split
  · exact h
  · exact ⟨h.here, h.pos, h.closed, h.outer, h.pending⟩

theorem At.text_not_mem (hs : s.InCode) : .text ∉ s.modes := by
  cases hmodes : s.modes with
  | nil => exact List.not_mem_nil
  | cons m ms =>
    have hm := hs.modes
    have hms := h.outer
    rw [hmodes] at hm hms
    intro hmem
    rcases List.mem_cons.mp hmem with rfl | hmem
    · exact hm rfl
    · exact hms hmem

end

/-- Around a token strings and holes stay, open or count braces; only the brace that closes a hole
leads back into a string. -/
theorem surround_cases {k : Kind} {ms : List Mode} (hms : .text ∉ ms) :
    (surround k ms).1 = k ∧ .text ∉ (surround k ms).2 ∨
      k = .sym .rbrace ∧ surround k ms = (.holeEnd, .text :: ms.tail) := by
  fun_cases surround k ms
  · left
    simpa using hms
  · left
    simpa using hms
  · exact .inr ⟨rfl, rfl⟩
  · left
    simpa using hms
  · exact .inl ⟨rfl, hms⟩

/-- A scanner behind `before` sends a token with the characters `cs` and goes past them. -/
structure Takes (text before cs : List Char) (t : Token) (next : Scanner) : Prop where
  stands : t.Stands text before cs
  moves : next.At text (before ++ cs)
  kind : t.kind ≠ .holeStart ∧ t.kind ≠ .eof
  ne_nil : t.kind.continuesText = false → cs ≠ []
  waits : ∀ u ∈ next.pending, t.span.start ≤ u.span.start
  written : next.faults = [] → cs ≠ [] ∧ t.kind.WrittenAs cs

/-- The scanner stops behind `before`, at the end of the text if nothing is wrong with it. -/
structure Ends (text before : List Char) (t : Token) (last : Scanner) : Prop where
  stands : t.Stands text before []
  moves : last.At text before
  kind : t.kind = .eof
  whole : last.faults = [] → before = text

/-- What a step of a scanner behind `before` gives, once it has passed over blanks and comments. -/
inductive Proceeds (text before : List Char) : Step → Prop
  | takes {gap cs : List Char} {t : Token} {next : Scanner}
      (h : Takes text (before ++ gap) cs t next) : Proceeds text before (.emit t next)
  | ends {gap : List Char} {t : Token} {last : Scanner} (h : Ends text (before ++ gap) t last) :
      Proceeds text before (.finish t last)

theorem Takes.proceeds (h : Takes text before cs t next) : Proceeds text before (.emit t next) := by
  rw [← List.append_nil before] at h
  exact .takes h

theorem Ends.proceeds (h : Ends text before t last) : Proceeds text before (.finish t last) := by
  rw [← List.append_nil before] at h
  exact .ends h

theorem Proceeds.of_append {gap : List Char} {step : Step} (h : Proceeds text (before ++ gap) step) :
    Proceeds text before step := by
  cases h with
  | takes h =>
    rw [List.append_assoc] at h
    exact .takes h
  | ends h =>
    rw [List.append_assoc] at h
    exact .ends h

theorem mem_opening {hole : Option Span} :
    t ∈ opening hole ↔ ∃ span ∈ hole, ⟨.holeStart, span⟩ = t := by
  rw [opening, Option.mem_toList, Option.map_eq_some_iff]
  rfl

/-- The `${` that a lexeme stops for waits as a token. -/
theorem pending_opening {r : Reader} (h : l.Covers r cs) (hr : r.pos = .behind before)
    (ht : t ∈ opening l.hole) : t.kind = .holeStart ∧ ∃ front, before ++ cs = front ++ ['$', '{'] ∧
      t.span = .upTo (.behind front) (.behind (before ++ cs)) := by
  obtain ⟨span, hspan, rfl⟩ := mem_opening.mp ht
  obtain ⟨ds, rfl, rfl⟩ := h.hole span hspan
  refine ⟨rfl, before ++ ds, (List.append_assoc ..).symm, ?_⟩
  rw [h.passes.pos, hr, Position.advance_behind, Position.advance_behind]

/-- Going past a lexeme that is sent as a token of kind `kind`, into the surroundings `modes`. -/
theorem At.takes {kind : Kind} {modes : List Mode} (h : s.At text before)
    (hl : l.Covers s.reader cs) (hopens : kind.Opens cs) (hkind : kind ≠ .holeStart ∧ kind ≠ .eof)
    (htext : kind.continuesText → before.getLast? = some '}')
    (hsome : kind.continuesText = false → cs ≠ [])
    (hwritten : l.faults = [] → cs ≠ [] ∧ kind.WrittenAs cs)
    (hclosed : modes.head? = some .text → (before ++ cs).getLast? = some '}')
    (houter : .text ∉ modes.tail) : Takes text before cs ⟨kind, .upTo s.reader.pos l.next.pos⟩
      ⟨l.next, modes, opening l.hole, s.faults ++ l.faults⟩ := by
  have hpos : l.next.pos = .behind (before ++ cs) := by
    rw [hl.passes.pos, h.pos, Position.advance_behind]
  have hrest : text = before ++ cs ++ l.next.rest := by
    rw [List.append_assoc, ← hl.passes.rest]
    exact h.here
  constructor
  · refine ⟨⟨l.next.rest, hrest.symm⟩, hopens, htext, ?_⟩
    rw [if_neg hkind.2, ← hpos, ← h.pos]
  · exact ⟨hrest, hpos, hclosed, houter, fun t ht => pending_opening hl h.pos ht⟩
  · exact hkind
  · exact hsome
  · intro u hu
    obtain ⟨span, hspan, rfl⟩ := mem_opening.mp hu
    obtain ⟨ds, -, rfl⟩ := hl.hole span hspan
    exact Position.le_advance _ ds
  · intro hnone
    exact hwritten (List.append_eq_nil_iff.mp hnone).2

/-- What a lexeme is sent as, outside strings. -/
theorem kind_of_read? {r : Reader} (hl : Lexeme.read? r = some l) :
    (l.kind ≠ .holeStart ∧ l.kind ≠ .eof) ∧ l.kind.continuesText = false := by
  rcases Lexeme.kind_read? hl with ⟨hplain, -⟩ | ⟨start, hstart, -⟩
  · cases hk : l.kind <;> simp_all [Kind.isPlain, Kind.continuesText]
  · simp [hstart, Kind.continuesText]

/-- Outside strings a scanner goes past a lexeme. -/
theorem At.accept (h : s.At text before) (hs : s.InCode) (hl : Lexeme.read? s.reader = some l) :
    Proceeds text before (s.accept l) := by
  obtain ⟨cs, hcovers⟩ := Lexeme.covers_read? hl
  obtain ⟨hkind, htext⟩ := kind_of_read? hl
  have hne := hcovers.ne_nil hl
  have hproceeds : s.accept l = .emit ⟨(surround l.kind s.modes).1, .upTo s.reader.pos l.next.pos⟩
      ⟨l.next, (surround l.kind s.modes).2, opening l.hole, s.faults ++ l.faults⟩ := rfl
  rw [hproceeds]
  refine Takes.proceeds (?_ : Takes text before cs _ _)
  rcases surround_cases (k := l.kind) (h.text_not_mem hs) with ⟨hsame, hmodes⟩ | ⟨hbrace, hclose⟩
  · rw [hsame]
    apply h.takes hcovers hcovers.opens hkind
    · rw [htext]
      intro hcontinues
      cases hcontinues
    · exact fun _ => hne
    · exact fun hnone => ⟨hne, hcovers.written hnone⟩
    · exact fun hhead => absurd (List.mem_of_mem_head? hhead) hmodes
    · exact fun hmem => hmodes (List.mem_of_mem_tail hmem)
  · have hcs : cs = ['}'] := by
      have hopens := hcovers.opens
      rw [hbrace] at hopens
      exact hopens
    rw [hclose]
    apply h.takes hcovers
    · exact hcs
    · exact ⟨Kind.noConfusion, Kind.noConfusion⟩
    · intro hcontinues
      cases hcontinues
    · exact fun _ => hne
    · exact fun _ => ⟨hne, hcs⟩
    · intro _
      rw [hcs]
      exact List.getLast?_concat
    · exact fun hmem => h.text_not_mem hs (List.mem_of_mem_tail hmem)

/-- Behind a hole a scanner goes past the text that follows. -/
theorem At.resume {outer : List Mode} (h : s.At text before)
    (hmodes : s.modes = .text :: outer) : Proceeds text before (s.resume outer) := by
  obtain ⟨cs, hcovers⟩ := Lexeme.covers_continuation s.reader
  have hclosed : before.getLast? = some '}' := h.closed (by rw [hmodes]; rfl)
  have houter : .text ∉ outer := by
    have houter := h.outer
    rwa [hmodes] at houter
  have hkind := Lexeme.kind_continuation s.reader
  apply Takes.proceeds
  apply h.takes hcovers hcovers.opens
  · rcases hkind with ⟨stop, hstop, -⟩ | ⟨part, span, hpart, -⟩
    · simp [hstop]
    · simp [hpart]
  · exact fun _ => hclosed
  · rcases hkind with ⟨stop, hstop, -⟩ | ⟨part, span, hpart, -⟩
    · simp [hstop, Kind.continuesText]
    · simp [hpart, Kind.continuesText]
  · intro hnone
    have hwritten := hcovers.written hnone
    refine ⟨?_, hwritten⟩
    rcases hkind with ⟨stop, hstop, -⟩ | ⟨part, span, hpart, -⟩
    · rw [hstop] at hwritten
      obtain ⟨body, -, rfl⟩ := hwritten
      simp
    · rw [hpart] at hwritten
      obtain ⟨body, -, rfl⟩ := hwritten
      simp
  · split
    · intro hhead
      cases hhead
    · exact fun hhead => absurd (List.mem_of_mem_head? hhead) houter
  · split
    · exact houter
    · exact fun hmem => houter (List.mem_of_mem_tail hmem)

theorem At.ends (h : s.At text before) (hwhole : s.faults = [] → before = text) :
    Ends text before s.eof s where
  stands := by
    constructor
    · rw [List.append_nil]
      exact ⟨s.reader.rest, h.here.symm⟩
    · rfl
    · intro hcontinues
      cases hcontinues
    · exact congrArg Span.point h.pos
  moves := h
  kind := rfl
  whole := hwhole

/-- A scanner without faults has not seen too many. -/
theorem faults_ne_nil_of_full (h : s.full = true) : s.faults ≠ [] := by
  intro hnone
  rw [full, hnone] at h
  cases h

section
variable (h : s.At text before)
include h

theorem At.codeWithin {n : Nat} (hs : s.InCode) (hn : s.reader.rest.length < n) :
    Proceeds text before (codeWithin n s) := by
  induction n generalizing s before with
  | zero => omega
  | succ n ih =>
    obtain ⟨gap, hat, hcode⟩ := h.skip hs
    refine .of_append (?_ : Proceeds text (before ++ gap) _)
    rw [Scanner.codeWithin]
    split
    · next hfull => exact (hat.ends fun hnone => absurd hnone (faults_ne_nil_of_full hfull)).proceeds
    split
    · next hrest =>
      refine (hat.close.ends fun _ => ?_).proceeds
      rw [hat.here, hrest, List.append_nil]
    · next c rest hrest =>
      split
      · next l hl => exact hat.accept hcode hl
      · obtain ⟨gap', hat', hcode'⟩ := hat.reject hcode c
        have hle := length_skip_le s
        have hlt : (s.skip.reject c).reader.rest.length < s.skip.reader.rest.length :=
          Reader.length_advance_one (by rw [hrest]; simp)
        exact .of_append (ih hat' hcode' (by omega))

/-- A step sends the token that waits, or passes over blanks and comments and takes or ends. -/
theorem At.step : (∃ t ts, s.pending = t :: ts ∧ s.step = .emit t { s with pending := ts }) ∨
      Proceeds text before s.step := by
  unfold Scanner.step
  split
  · next hfull =>
    exact .inr (h.ends fun hnone => absurd hnone (faults_ne_nil_of_full hfull)).proceeds
  split
  · next t ts hpending => exact .inl ⟨t, ts, hpending, rfl⟩
  · next hpending =>
    right
    split
    · next outer hmodes => exact h.resume hmodes
    · next hmodes =>
      refine h.codeWithin ⟨hpending, fun hhead => ?_⟩ (Nat.lt_succ_self _)
      obtain ⟨outer, houter⟩ := List.head?_eq_some_iff.mp hhead
      exact hmodes outer houter

theorem At.drop_pending {ts : List Token} (hts : s.pending = t :: ts) :
    At text before { s with pending := ts } :=
  ⟨h.here, h.pos, h.closed, h.outer,
    fun u hu => h.pending u (by rw [hts]; exact List.mem_cons_of_mem t hu)⟩

/-! ### Whole scans -/

theorem At.of_emit (hstep : s.step = .emit t next) :
    (∃ ts, s.pending = t :: ts ∧ next = { s with pending := ts }) ∨
      ∃ gap cs, Takes text (before ++ gap) cs t next := by
  rcases h.step with ⟨u, ts, hpending, hu⟩ | hproceeds
  · cases hstep.symm.trans hu
    exact .inl ⟨ts, hpending, rfl⟩
  · rw [hstep] at hproceeds
    cases hproceeds with
    | takes htakes => exact .inr ⟨_, _, htakes⟩

theorem At.of_finish (hstep : s.step = .finish t last) :
    ∃ gap, Ends text (before ++ gap) t last := by
  rcases h.step with ⟨u, ts, -, hu⟩ | hproceeds
  · cases hstep.symm.trans hu
  · rw [hstep] at hproceeds
    cases hproceeds with
    | ends hends => exact ⟨_, hends⟩

/-- Every scanner that comes up in a scan is somewhere in the text. -/
theorem At.after_emit (hstep : s.step = .emit t next) : ∃ before', next.At text before' := by
  rcases h.of_emit hstep with ⟨ts, hts, rfl⟩ | ⟨gap, cs, htakes⟩
  · exact ⟨before, h.drop_pending hts⟩
  · exact ⟨_, htakes.moves⟩

/-- Every token stands where its characters do. In a scan without faults it is written with just
them, and the last token stands at the end of the text. -/
theorem At.stands_run (ht : t ∈ s.run.1) : ∃ front cs, t.Stands text front cs ∧ (s.run.2 = [] →
      t.kind.WrittenAs cs ∧ if t.kind = .eof then front = text else cs ≠ []) := by
  induction s using run_induction generalizing before with
  | finish s u last hstep =>
    rw [run_of_finish hstep] at ht ⊢
    obtain ⟨gap, hends⟩ := h.of_finish hstep
    rw [List.mem_singleton.mp ht]
    refine ⟨before ++ gap, [], hends.stands, fun hnone => ?_⟩
    rw [hends.kind]
    exact ⟨rfl, hends.whole hnone⟩
  | emit s u next hstep ih =>
    have hfaults := faults_run next
    obtain ⟨before', hnext⟩ := h.after_emit hstep
    rw [run_of_emit hstep] at ht ⊢
    rcases List.mem_cons.mp ht with rfl | ht
    · rcases h.of_emit hstep with ⟨ts, hts, rfl⟩ | ⟨gap, cs, htakes⟩
      · obtain ⟨front, -, hkind, hstands⟩ := h.stands_pending (hts ▸ List.mem_cons_self)
        refine ⟨front, _, hstands, fun _ => ?_⟩
        rw [hkind]
        exact ⟨rfl, List.cons_ne_nil _ _⟩
      · refine ⟨_, cs, htakes.stands, fun hnone => ?_⟩
        rw [hnone, List.prefix_nil] at hfaults
        obtain ⟨hne, hwritten⟩ := htakes.written hfaults
        rw [if_neg htakes.kind.2]
        exact ⟨hwritten, hne⟩
    · exact ih hnext ht

end

/-- Nothing that a scanner sends from now on starts in front of `p`. -/
structure From (p : Position) (s : Scanner) : Prop where
  reader : p ≤ s.reader.pos
  pending : ∀ t ∈ s.pending, p ≤ t.span.start

theorem At.from_emit {p : Position} (h : s.At text before) (hfrom : s.From p)
    (hstep : s.step = .emit t next) : p ≤ t.span.start ∧ next.From t.span.start := by
  rcases h.of_emit hstep with ⟨ts, hts, rfl⟩ | ⟨gap, cs, htakes⟩
  · have ht : t ∈ s.pending := hts ▸ List.mem_cons_self
    obtain ⟨-, front, rfl, hspan⟩ := h.pending t ht
    refine ⟨hfrom.pending t ht, ?_, fun u hu => ?_⟩
    · rw [h.pos, hspan]
      exact Position.behind_le_append front _
    · -- all tokens that wait are the same `${`
      obtain ⟨-, front', hfront, hspan'⟩ := h.pending u (by rw [hts]; exact List.mem_cons_of_mem t hu)
      rw [hspan, hspan', (List.append_left_inj _).mp hfront]
  · have hstart : t.span.start = .behind (before ++ gap) := htakes.stands.start
    refine ⟨?_, ?_, htakes.waits⟩
    · rw [hstart]
      exact le_trans hfrom.reader (h.pos ▸ Position.behind_le_append before gap)
    · rw [hstart, htakes.moves.pos]
      exact Position.behind_le_append _ _

/-- Tokens start one behind the other. -/
theorem At.sorted_run (h : s.At text before) :
    (∀ p, s.From p → ∀ t ∈ s.run.1, p ≤ t.span.start) ∧
      s.run.1.Pairwise fun t u => t.span.start ≤ u.span.start := by
  induction s using run_induction generalizing before with
  | finish s t last hstep =>
    rw [run_of_finish hstep]
    obtain ⟨gap, hends⟩ := h.of_finish hstep
    refine ⟨fun p hfrom u hu => ?_, List.pairwise_singleton _ _⟩
    rw [List.mem_singleton.mp hu, hends.stands.start]
    exact le_trans hfrom.reader (h.pos ▸ Position.behind_le_append before gap)
  | emit s t next hstep ih =>
    rw [run_of_emit hstep]
    obtain ⟨before', hnext⟩ := h.after_emit hstep
    obtain ⟨hleast, hsorted⟩ := ih hnext
    constructor
    · intro p hfrom u hu
      obtain ⟨ht, hfrom'⟩ := h.from_emit hfrom hstep
      rcases List.mem_cons.mp hu with rfl | hu
      · exact ht
      · exact le_trans ht (hleast _ hfrom' u hu)
    · refine List.pairwise_cons.mpr ⟨fun u hu => ?_, hsorted⟩
      have hlow : s.From ⟨0, 0⟩ := by
        constructor
        · exact .inl (by rw [h.pos]; exact Nat.succ_pos _)
        · intro v hv
          obtain ⟨-, front, -, hspan⟩ := h.pending v hv
          rw [hspan]
          exact .inl (Nat.succ_pos _)
      exact hleast _ (h.from_emit hlow hstep).2 u hu

end Scanner

/-! ### The layout of a text without faults -/

/-- Tokens stand one behind the other, the first behind `p`. Only the `${` that opens a hole is also
the end of the text in front of it. -/
inductive Token.Laid : Position → List Token → Prop
  | nil (p : Position) : Laid p []
  | token {p : Position} {t : Token} {ts : List Token} (hkind : t.kind ≠ .holeStart)
      (hstart : p < t.span.start) (hstop : t.span.start ≤ t.span.stop) (h : Laid t.span.stop ts) :
      Laid p (t :: ts)
  | hole {t : Token} {ts : List Token} (hkind : t.kind = .holeStart)
      (hstop : t.span.start ≤ t.span.stop) (h : Laid t.span.stop ts) : Laid t.span.stop (t :: ts)

namespace Scanner

variable {text before : List Char} {s next : Scanner} {t : Token}

/-- What is written on one line ends where its last character stands. -/
theorem span_of_stands {cs : List Char} (h : t.Stands text before cs) (hkind : t.kind ≠ .eof)
    (hne : cs ≠ []) (hwritten : t.kind.WrittenAs cs) :
    t.span = ⟨.behind before, .behind (before ++ cs.dropLast)⟩ := by
  rw [h.span, if_neg hkind, Position.upTo_behind hne (Kind.newline_not_mem hwritten)]

theorem behind_dropLast_lt {cs : List Char} (hne : cs ≠ []) :
    Position.behind (before ++ cs.dropLast) < .behind (before ++ cs) := by
  obtain ⟨ds, c, rfl⟩ : ∃ ds c, cs = ds ++ [c] := ⟨_, _, (List.dropLast_concat_getLast hne).symm⟩
  rw [List.dropLast_concat, ← List.append_assoc, Position.behind_concat]
  exact Position.lt_step _ c

theorem At.laid_run {p : Position} (h : s.At text before) (hp : p < s.reader.pos)
    (hpending : ∀ t ∈ s.pending, t.span.stop = p) (hnone : s.run.2 = []) : Token.Laid p s.run.1 := by
  induction s using run_induction generalizing before p with
  | finish s t last hstep =>
    rw [run_of_finish hstep]
    obtain ⟨gap, hends⟩ := h.of_finish hstep
    have hspan : t.span = .point (.behind (before ++ gap)) := by
      rw [hends.stands.span, if_pos hends.kind]
    rw [h.pos] at hp
    apply Token.Laid.token
    · rw [hends.kind]
      exact Kind.noConfusion
    · rw [hspan]
      exact lt_of_lt_of_le hp (Position.behind_le_append before gap)
    · rw [hspan]
      exact le_rfl
    · exact .nil _
  | emit s t next hstep ih =>
    rw [run_of_emit hstep] at hnone ⊢
    have hfaults := faults_run next
    rw [hnone, List.prefix_nil] at hfaults
    rcases h.of_emit hstep with ⟨ts, hts, rfl⟩ | ⟨gap, cs, htakes⟩
    · have ht : t ∈ s.pending := hts ▸ List.mem_cons_self
      obtain ⟨front, -, hkind, hstands⟩ := h.stands_pending ht
      have hrest := ih (h.drop_pending hts) hp
        (fun u hu => hpending u (by rw [hts]; exact List.mem_cons_of_mem t hu)) hnone
      have hspan := span_of_stands hstands (by rw [hkind]; exact Kind.noConfusion)
        (List.cons_ne_nil _ _) (by rw [hkind]; rfl)
      rw [← hpending t ht] at hrest ⊢
      apply Token.Laid.hole hkind
      · rw [hspan]
        exact Position.behind_le_append _ _
      · exact hrest
    · obtain ⟨hne, hwritten⟩ := htakes.written hfaults
      have hspan := span_of_stands htakes.stands htakes.kind.2 hne hwritten
      rw [h.pos] at hp
      apply Token.Laid.token htakes.kind.1
      · rw [hspan]
        exact lt_of_lt_of_le hp (Position.behind_le_append before gap)
      · rw [hspan]
        exact Position.behind_le_append _ _
      · apply ih htakes.moves
        · rw [hspan, htakes.moves.pos]
          exact behind_dropLast_lt hne
        · intro u hu
          obtain ⟨-, front, -, hu⟩ := htakes.moves.pending u hu
          rw [hu, htakes.stands.span, if_neg htakes.kind.2]
          rfl
        · exact hnone

/-! ### Everything that a scan comes by -/

/-- The scanners that come up when a text is scanned: between tokens, behind blanks and comments,
behind characters that start no token, and where the scan stops. -/
inductive Visits (text : String) : Scanner → Prop
  | start : Visits text (.start text)
  | emit {s next : Scanner} {t : Token} (h : Visits text s) (hstep : s.step = .emit t next) :
      Visits text next
  | finish {s last : Scanner} {t : Token} (h : Visits text s) (hstep : s.step = .finish t last) :
      Visits text last
  | skip {s : Scanner} (h : Visits text s) (hs : s.InCode) : Visits text s.skip
  | reject {s : Scanner} {c : Char} {cs : List Char} (h : Visits text s) (hs : s.InCode)
      (hc : s.reader.rest = c :: cs) (hread : Lexeme.read? s.reader = none) :
      Visits text (s.reject c)

theorem Visits.at {text : String} {s : Scanner} (h : Visits text s) :
    ∃ before, s.At text.toList before := by
  induction h with
  | start => exact ⟨[], at_start text⟩
  | emit _ hstep ih =>
    obtain ⟨before, hat⟩ := ih
    exact hat.after_emit hstep
  | finish _ hstep ih =>
    obtain ⟨before, hat⟩ := ih
    obtain ⟨gap, hends⟩ := hat.of_finish hstep
    exact ⟨_, hends.moves⟩
  | skip _ hs ih =>
    obtain ⟨before, hat⟩ := ih
    obtain ⟨gap, hskip, -⟩ := hat.skip hs
    exact ⟨_, hskip⟩
  | reject _ hs _ _ ih =>
    obtain ⟨before, hat⟩ := ih
    obtain ⟨gap, hreject, -⟩ := hat.reject hs _
    exact ⟨_, hreject⟩

end Scanner

end CarvFront

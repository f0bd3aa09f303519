import CarvFront.Proofs.LawfulGrammar
import CarvFront.Proofs.Reading

/-! Reading goes forward. A parser goes past the tokens that are there one by one and never past an
end; the faults that it finds are at tokens that it passed or at the one it got to. -/
namespace CarvFront
variable {w w' : List Token}

/-- From `ts` past the tokens `w` to `ts'`. Of a sign that closes two things, one may be passed and
the other left. -/
inductive Passes : List Token → List Token → List Token → Prop
  | here (ts : List Token) : Passes ts [] ts
  | past {t : Token} {ts w ts' : List Token} (ht : t.kind ≠ .eof) (h : Passes ts w ts') :
      Passes (t :: ts) (t :: w) ts'
  | part {t : Token} {ts w ts' : List Token} {k : Kind} (hk : t.kind.Splits k)
      (h : Passes ({ t with kind := k } :: ts) w ts') : Passes (t :: ts) w ts'

namespace Passes
variable {ts ts' ts'' w w' : List Token}

theorem trans (h : Passes ts w ts') (h' : Passes ts' w' ts'') : Passes ts (w ++ w') ts'' := by
  induction h with
  | here ts => exact h'
  | past ht _ ih => exact .past ht (ih h')
  | part hk _ ih => exact .part hk (ih h')

/-- Apart from signs that were split, the tokens are those passed and those left. -/
theorem map_eq {β : Type} {f : Token → β}
    (hf : ∀ (t : Token) (k : Kind), t.kind.Splits k → f { t with kind := k } = f t)
    (h : Passes ts w ts') : ts.map f = w.map f ++ ts'.map f := by
  induction h with
  | here ts => rfl
  | past ht _ ih => exact congrArg (f _ :: ·) ih
  | @part t ts w ts' k hk _ ih =>
    rw [List.map_cons, hf t k hk] at ih
    exact ih

section
variable (h : Passes ts w ts')
include h

theorem spans_eq : ts.map Token.span = w.map Token.span ++ ts'.map Token.span :=
  h.map_eq fun _ _ _ => rfl

/-- The ends among the tokens: no sign that is split is one, and none is left of it. -/
theorem ends_eq : ts.map (·.kind.ends) = w.map (·.kind.ends) ++ ts'.map (·.kind.ends) :=
  h.map_eq fun _ _ hk => hk.ends_part.trans hk.ends.symm

theorem length_eq : ts.length = w.length + ts'.length := by
  simpa using congrArg List.length h.spans_eq

theorem length_le : ts'.length ≤ ts.length :=
  h.length_eq ▸ Nat.le_add_left _ _

theorem ne_nil (hlt : ts'.length < ts.length) : w ≠ [] := by
  rintro rfl
  have hlen := h.length_eq
  rw [List.length_nil] at hlen
  omega

end

/-- Where nothing is passed, no end is got to. -/
theorem firstKind_ne (h : Passes ts [] ts') (hts : firstKind ts ≠ .eof) : firstKind ts' ≠ .eof := by
  generalize hw : ([] : List Token) = w at h
  induction h with
  | here ts => exact hts
  | past ht _ ih => cases hw
  | part hk _ ih => exact ih hk.ne_eof hw

/-- No end is put among the tokens. -/
theorem ne_eof (h : Passes ts w ts') (hts : ∀ t ∈ ts, t.kind ≠ .eof) :
    ∀ t ∈ ts', t.kind ≠ .eof := by
  induction h with
  | here => exact hts
  | past _ _ ih => exact ih fun t ht => hts t (.tail _ ht)
  | part hk _ ih => exact ih (List.forall_mem_cons.mpr ⟨hk.ne_eof, fun t ht => hts t (.tail _ ht)⟩)

end Passes

namespace Cursor

theorem span_eq (c : Cursor) : c.span = (c.rest.map Token.span).headD c.prev := by
  obtain ⟨_ | ⟨t, ts⟩, prev, depth, faults⟩ := c <;> rfl

/-- From one cursor past the tokens `w` to another, with the faults found on the way. -/
structure Course (c : Cursor) (w : List Token) (c' : Cursor) : Prop where
  passes : Passes c.rest w c'.rest
  prev : w = [] → c'.prev = c.prev
  depth : c'.depth = c.depth
  faults : ∃ new, c'.faults = c.faults ++ new ∧
    ∀ f ∈ new, f.span ∈ w.map Token.span ∨ f.span = c'.span

namespace Course
variable {c c₁ c₂ : Cursor} {w w' : List Token}

theorem refl (c : Cursor) : c.Course [] c :=
  ⟨.here _, fun _ => rfl, rfl, [], (List.append_nil _).symm, by simp⟩

/-- Where a fault was found at the token that was got to, going on passes it or stays at it. -/
theorem span_mem (h : c.Course w c₁) : c.span ∈ w.map Token.span ∨ c.span = c₁.span := by
  rw [span_eq, span_eq, h.passes.spans_eq]
  cases w with
  | nil => exact .inr (by rw [h.prev rfl]; rfl)
  | cons t w => exact .inl (.head _)

theorem trans (h : c.Course w c₁) (h' : c₁.Course w' c₂) : c.Course (w ++ w') c₂ := by
  obtain ⟨new, hnew, hspans⟩ := h.faults
  obtain ⟨new', hnew', hspans'⟩ := h'.faults
  refine ⟨h.passes.trans h'.passes, fun hnil => ?_, h'.depth.trans h.depth, new ++ new', ?_, ?_⟩
  · obtain ⟨rfl, rfl⟩ := List.append_eq_nil_iff.mp hnil
    rw [h'.prev rfl, h.prev rfl]
  · rw [hnew', hnew, List.append_assoc]
  · intro f hf
    rw [List.map_append, List.mem_append]
    rcases List.mem_append.mp hf with hf | hf
    · rcases hspans f hf with hmem | hspan
      · exact .inl (.inl hmem)
      · rw [hspan, or_assoc]
        exact .inr h'.span_mem
    · rw [or_assoc]
      exact .inr (hspans' f hf)

theorem faults_le (h : c.Course w c₁) : c.faults.length ≤ c₁.faults.length := by
  obtain ⟨new, hnew, -⟩ := h.faults
  rw [hnew, List.length_append]
  exact Nat.le_add_right _ _

theorem report (c : Cursor) (e : SyntaxError) : c.Course [] (c.report e) :=
  ⟨.here _, fun _ => rfl, rfl, [⟨e, c.span⟩], rfl, by simp [Cursor.report, Cursor.span]⟩

end Course

theorem course_next {c : Cursor} (h : c.kind ≠ .eof) :
    ∃ t, t.kind = c.kind ∧ c.Course [t] c.next := by
  obtain ⟨_ | ⟨t, ts⟩, prev, depth, faults⟩ := c
  · exact absurd rfl h
  · refine ⟨t, rfl, .past h (.here _), by simp, rfl, [], (List.append_nil _).symm, by simp⟩

/-- Skipping stops before a token, stops behind it or goes on. -/
theorem skipTo_cons (moved : Bool) (t : Token) :
    ((t.kind = .eof ∨ moved = true) ∧ ∀ ts prev, skipTo moved (t :: ts) prev = (t :: ts, prev)) ∨
    (t.kind ≠ .eof ∧ ∀ ts prev, skipTo moved (t :: ts) prev = (ts, t.span)) ∨
    (t.kind ≠ .eof ∧ ∀ ts prev, skipTo moved (t :: ts) prev = skipTo true ts t.span) := by
  by_cases heof : t.kind = .eof
  · exact .inl ⟨.inl heof, fun _ _ => if_pos heof⟩
  by_cases hsemi : t.kind = .sym .semicolon
  · exact .inr (.inl ⟨heof, fun _ _ => by rw [skipTo, if_neg heof, if_pos hsemi]⟩)
  by_cases hstop : moved = true ∧ (t.kind.startsStatement = true ∨ t.kind = .sym .rbrace)
  · exact .inl ⟨.inr hstop.1, fun _ _ => by rw [skipTo, if_neg heof, if_neg hsemi, if_pos hstop]⟩
  by_cases hbrace : t.kind = .sym .rbrace
  · refine .inr (.inl ⟨heof, fun _ _ => ?_⟩)
    rw [skipTo, if_neg heof, if_neg hsemi, if_neg hstop, if_pos hbrace]
  · refine .inr (.inr ⟨heof, fun _ _ => ?_⟩)
    rw [skipTo, if_neg heof, if_neg hsemi, if_neg hstop, if_neg hbrace]

/-- Only at an end nothing is skipped. -/
theorem passes_skipTo (moved : Bool) (ts : List Token) (prev : Span) :
    ∃ w, Passes ts w (skipTo moved ts prev).1 ∧ (w = [] → (skipTo moved ts prev).2 = prev) ∧
      (moved = false → firstKind ts ≠ .eof → w ≠ []) := by
  induction ts generalizing moved prev with
  | nil => exact ⟨[], .here _, fun _ => rfl, fun _ h => absurd rfl h⟩
  | cons t ts ih =>
    rcases skipTo_cons moved t with ⟨hstop, hskip⟩ | ⟨heof, hskip⟩ | ⟨heof, hskip⟩ <;> rw [hskip]
    · refine ⟨[], .here _, fun _ => rfl, fun hmoved hkind => ?_⟩
      rcases hstop with heof | hmoved'
      · exact absurd heof hkind
      · exact absurd (hmoved.symm.trans hmoved') nofun
    · exact ⟨[t], .past heof (.here _), nofun, fun _ _ => nofun⟩
    · obtain ⟨w, hw, -, -⟩ := ih true t.span
      exact ⟨t :: w, .past heof hw, nofun, fun _ _ => nofun⟩

theorem course_recover (c : Cursor) :
    ∃ w, c.Course w c.recover ∧ (c.kind ≠ .eof → w ≠ []) := by
  obtain ⟨w, hw, hprev, hmoves⟩ := passes_skipTo false c.rest c.prev
  refine ⟨w, ⟨hw, hprev, rfl, [], (List.append_nil _).symm, by simp⟩, fun hkind => ?_⟩
  exact hmoves rfl (c.kind_eq ▸ hkind)

end Cursor

namespace Parser
variable {α β : Type}
variable {c : Cursor}

/-! ### What a parser passes -/

/-- The tokens that a parser passes have `F`, which depends on whether it gives something. Where it
gives nothing it has found a fault. -/
def Passing (F : Bool → List Token → Prop) ⦃α : Type⦄ (c : Cursor) (p : Parser α) : Prop :=
  ∃ w, c.Course w (p c).2 ∧ F (p c).1.isSome w ∧
    ((p c).1.isSome = true ∨ c.faults.length < (p c).2.faults.length)

/-- What holds of tokens that are passed one after another. -/
structure Gathers (F : Bool → List Token → Prop) : Prop where
  nil (ok : Bool) : F ok []
  one {t : Token} (ht : t.kind.ends = false) : F true [t]
  append {ok : Bool} {w w' : List Token} (h : F true w) (h' : F ok w') : F ok (w ++ w')

variable {F : Bool → List Token → Prop}

theorem Passing.look (h : Gathers F) (get : Cursor → α) (c : Cursor) :
    Passing F c (fun c => (some (get c), c)) :=
  ⟨[], .refl c, h.nil _, .inl rfl⟩

theorem Passing.fail (h : Gathers F) (e : SyntaxError) (c : Cursor) :
    Passing F c (fail e : Parser α) := by
  refine ⟨[], .report c e, h.nil _, .inr ?_⟩
  change _ < (c.faults ++ [_]).length
  simp

theorem Passing.bind (h : Gathers F) {p : Parser α} {f : α → Parser β} (hp : Passing F c p)
    (hf : ∀ a c', p c = (some a, c') → Passing F c' (f a)) : Passing F c (p >>= f) := by
  obtain ⟨w, hw, hF, hfault⟩ := hp
  unfold Passing
  rcases hres : p c with ⟨_ | a, c'⟩ <;> rw [hres] at hw hF hfault
  · rw [bind_of_none hres]
    exact ⟨w, hw, hF, hfault⟩
  · rw [bind_of_some hres]
    obtain ⟨w', hw', hF', hfault'⟩ := hf a c' hres
    refine ⟨w ++ w', hw.trans hw', h.append hF hF', hfault'.imp_right fun hlt => ?_⟩
    exact Nat.lt_of_le_of_lt hw.faults_le hlt

theorem Passing.become (h : Gathers F) {k : Kind} (hk : c.kind.Splits k) :
    Passing F c (become k) := by
  obtain ⟨_ | ⟨t, ts⟩, prev, depth, faults⟩ := c
  · cases hk
  · refine ⟨[], ⟨.part hk (.here _), fun _ => rfl, rfl, [], ?_, by simp⟩, h.nil _, .inl rfl⟩
    exact (List.append_nil _).symm

theorem Passing.nested (h : Gathers F) {p : Parser α}
    (hp : Passing F { c with depth := c.depth + 1 } p) : Passing F c (nested p) := by
  unfold Passing Parser.nested
  split
  · exact Passing.fail h _ c
  · obtain ⟨w, ⟨hpasses, hprev, hdepth, hfaults⟩, hF⟩ := hp
    exact ⟨w, ⟨hpasses, hprev, congrArg (· - 1) hdepth, hfaults⟩, hF⟩

theorem Passing.next (hc : c.kind ≠ .eof) (hF : ∀ t : Token, t.kind = c.kind → F true [t]) :
    Passing F c next := by
  obtain ⟨t, ht, hcourse⟩ := Cursor.course_next hc
  exact ⟨[t], hcourse, hF t ht, .inl rfl⟩

theorem core_passing (h : Gathers F) : Core (Passing F) where
  shrinks := by
    rintro _ p c ⟨w, hw, -⟩
    exact hw.passes.length_le
  pure a c := .look h (fun _ => a) c
  bind := .bind h
  fail e c := .fail h e c
  peek c := .look h Cursor.kind c
  lookAhead {n c} _ := .look h (·.lookAhead n) c
  here hf _ := hf
  before c := .look h Cursor.prev c
  remaining hF _ := hF _
  next hc := .next (Kind.ne_eof_of_ends hc) fun _ ht => h.one (ht ▸ hc)
  become := .become h
  nested := .nested h

/-- What goes forward. -/
abbrev Forward : ∀ ⦃α : Type⦄, Cursor → Parser α → Prop :=
  Passing fun _ _ => True

theorem gathers_true : Gathers fun _ _ => True :=
  ⟨fun _ => trivial, fun _ => trivial, fun _ _ => trivial⟩

theorem core_forward : Core Forward :=
  core_passing gathers_true

/-! ### Lists of items -/

theorem GoesOn.ne_eof {stop : Kind → Bool} (h : GoesOn stop c) : c.kind ≠ .eof :=
  fun heof => h (.inr (.inl heof))

theorem allWithin_of_not {stop : Kind → Bool} (h : ¬GoesOn stop c) (item : Parser α) (n : Nat) :
    allWithin stop item n c = ([], c) := by
  cases n with
  | zero => rfl
  | succ n => rw [allWithin, if_pos (Decidable.not_not.mp h)]

/-- Some turns of reading a list of items, without a bound on their number: what is read and where
that gets to. Each turn leaves fewer tokens to the next one. -/
inductive Turns (stop : Kind → Bool) (item : Parser α) : Cursor → List α → Cursor → Prop
  | nil (c : Cursor) : Turns stop item c [] c
  | read {c c' last : Cursor} {a : α} {as : List α} (hc : GoesOn stop c)
      (ha : item c = (some a, c')) (hlt : c'.rest.length < c.rest.length)
      (h : Turns stop item c' as last) : Turns stop item c (a :: as) last
  | skip {c c' last : Cursor} {as : List α} (hc : GoesOn stop c)
      (hnone : item c = (none, c')) (hlt : c'.recover.rest.length < c.rest.length)
      (h : Turns stop item c'.recover as last) : Turns stop item c as last

section
variable {stop : Kind → Bool} {item : Parser α} {c c' last : Cursor} {as bs : List α}

/-- An item that fails may leave all tokens to recovery, but then recovery is not at an end. -/
theorem length_recover_lt (hitem : Forward c item) (hc : c.kind ≠ .eof)
    (hnone : item c = (none, c')) : c'.recover.rest.length < c.rest.length := by
  obtain ⟨w, hw, -⟩ := hitem
  simp only [hnone] at hw
  obtain ⟨w', hw', hmoves⟩ := c'.course_recover
  have hpasses := hw.passes.trans hw'.passes
  have hlen := hpasses.length_eq
  have hne : w ++ w' ≠ [] := by
    intro hnil
    obtain ⟨rfl, rfl⟩ := List.append_eq_nil_iff.mp hnil
    exact hmoves (c'.kind_eq ▸ hw.passes.firstKind_ne (c.kind_eq ▸ hc)) rfl
  have hpos := List.length_pos_iff.mpr hne
  omega

/-- A turn for each token is enough to come to the end of a list. -/
theorem turns_allWithin (stop : Kind → Bool) (hitem : ∀ c, Taking Forward c item) (n : Nat)
    (c : Cursor) (hn : c.rest.length ≤ n) :
    Turns stop item c (allWithin stop item n c).1 (allWithin stop item n c).2 ∧
      ¬GoesOn stop (allWithin stop item n c).2 := by
  induction n generalizing c with
  | zero =>
    obtain ⟨_ | ⟨t, ts⟩, prev, depth, faults⟩ := c
    · exact ⟨.nil _, fun hgo => hgo.ne_eof rfl⟩
    · exact absurd hn (Nat.not_succ_le_zero _)
  | succ n ih =>
    by_cases hc : GoesOn stop c
    · rcases hres : item c with ⟨_ | a, c'⟩
      · have hlt := length_recover_lt (hitem c).law hc.ne_eof hres
        obtain ⟨hturns, hend⟩ := ih c'.recover (by omega)
        rw [allWithin_of_none n hc hres]
        exact ⟨.skip hc hres hlt hturns, hend⟩
      · have hlt := (hitem c).takes hres
        obtain ⟨hturns, hend⟩ := ih c' (by omega)
        rw [allWithin_of_some n hc hres]
        exact ⟨.read hc hres hlt hturns, hend⟩
    · rw [allWithin_of_not hc]
      exact ⟨.nil c, hc⟩

namespace Turns

theorem eq_allWithin (h : Turns stop item c as last) (hend : ¬GoesOn stop last) {n : Nat}
    (hn : c.rest.length ≤ n) : allWithin stop item n c = (as, last) := by
  induction h generalizing n with
  | nil c => exact allWithin_of_not hend item n
  | read hc ha hlt _ ih =>
    obtain ⟨n, rfl⟩ := Nat.exists_eq_add_one_of_ne_zero (n := n) (by omega)
    rw [allWithin_of_some n hc ha, ih hend (by omega)]
  | skip hc hnone hlt _ ih =>
    obtain ⟨n, rfl⟩ := Nat.exists_eq_add_one_of_ne_zero (n := n) (by omega)
    rw [allWithin_of_none n hc hnone, ih hend (by omega)]

theorem trans (h : Turns stop item c as c') (h' : Turns stop item c' bs last) :
    Turns stop item c (as ++ bs) last := by
  induction h with
  | nil => exact h'
  | read hc ha hlt _ ih => exact .read hc ha hlt (ih h')
  | skip hc hnone hlt _ ih => exact .skip hc hnone hlt (ih h')

theorem eq_of_not (h : Turns stop item c as last) (hc : ¬GoesOn stop c) : as = [] ∧ last = c := by
  cases h with
  | nil => exact ⟨rfl, rfl⟩
  | read hgo => exact absurd hgo hc
  | skip hgo => exact absurd hgo hc

theorem course (h : Turns stop item c as last) (hitem : ∀ c, Forward c item) :
    ∃ w, c.Course w last := by
  induction h with
  | nil c => exact ⟨[], .refl c⟩
  | @read c c' last a as hc ha hlt _ ih =>
    obtain ⟨w, hw, -⟩ := hitem c
    obtain ⟨w', hw'⟩ := ih
    simp only [ha] at hw
    exact ⟨_, hw.trans hw'⟩
  | @skip c c' last as hc hnone hlt _ ih =>
    obtain ⟨w, hw, -⟩ := hitem c
    obtain ⟨w', hw', -⟩ := c'.course_recover
    obtain ⟨w'', hw''⟩ := ih
    simp only [hnone] at hw
    exact ⟨_, (hw.trans hw').trans hw''⟩

end Turns
end

end Parser

/-! ### Ends are left to statements -/

/-- There is no end of a statement before the first opening brace or `for`. -/
def Framed : List Token → Prop
  | [] => True
  | t :: w => t.kind.opens = true ∨ t.kind.ends = false ∧ Framed w

theorem Framed.append (h : Framed w) (h' : Framed w') : Framed (w ++ w') := by
  induction w with
  | nil => exact h'
  | cons t w ih =>
    rcases h with hopens | ⟨ht, hw⟩
    · exact .inl hopens
    · exact .inr ⟨ht, ih hw⟩

/-- The last token ends no statement. -/
def Sealed (w : List Token) : Prop :=
  ∀ t ∈ w.getLast?, t.kind.ends = false

theorem Sealed.append (h : Sealed w) (h' : Sealed w') : Sealed (w ++ w') := by
  intro t ht
  rw [List.getLast?_append] at ht
  cases hlast : w'.getLast? with
  | none =>
    rw [hlast] at ht
    exact h t ht
  | some u =>
    rw [hlast] at ht
    cases ht
    exact h' t hlast

theorem Sealed.of_append_right (h : Sealed w') (hw' : w' ≠ []) : Sealed (w ++ w') := by
  intro t ht
  rw [List.getLast?_append_of_ne_nil _ hw'] at ht
  exact h t ht

namespace Parser
variable {α β : Type}

/-- What stands inside a statement leaves ends alone, and where it is read as a whole it does not
stop behind one. -/
abbrev Inside : ∀ ⦃α : Type⦄, Cursor → Parser α → Prop :=
  Passing fun ok w => Framed w ∧ (ok = true → Sealed w)

theorem core_inside : Core Inside := by
  refine core_passing ⟨fun _ => ⟨trivial, fun _ => nofun⟩, fun {t} ht => ?_, fun h h' => ?_⟩
  · refine ⟨.inr ⟨ht, trivial⟩, fun _ u hu => ?_⟩
    cases hu
    exact ht
  · exact ⟨h.1.append h'.1, fun hok => (h.2 rfl).append (h'.2 hok)⟩

theorem Inside.forward {p : Parser α} {c : Cursor} (h : Inside c p) : Forward c p := by
  obtain ⟨w, hw, -, hfault⟩ := h
  exact ⟨w, hw, trivial, hfault⟩

theorem Inside.framed {body : Span → Parser α} {f : Span → α → Parser β} {c : Cursor}
    (hc : c.kind.opens = true) (hbody : ∀ s c, Forward c (body s))
    (hf : ∀ s a c, Taking Inside c (f s a)) : Inside c (next >>= fun s => body s >>= f s) := by
  obtain ⟨t, ht, hnext⟩ := Cursor.course_next (Kind.ne_eof_of_ends (Kind.ends_of_opens hc))
  have hopens : t.kind.opens = true := ht ▸ hc
  have heq : (next >>= fun s => body s >>= f s) c = (body c.span >>= f c.span) c.next := rfl
  obtain ⟨w, hw, -, hfault⟩ := hbody c.span c.next
  have hle := hnext.faults_le
  unfold Inside Passing
  rw [heq]
  rcases hres : body c.span c.next with ⟨_ | a, c₁⟩ <;> rw [hres] at hw hfault
  · rw [bind_of_none hres]
    refine ⟨t :: w, hnext.trans hw, ⟨.inl hopens, nofun⟩, hfault.imp_right fun hlt => ?_⟩
    exact Nat.lt_of_le_of_lt hle hlt
  · rw [bind_of_some hres]
    obtain ⟨w', hw', ⟨-, hsealed⟩, hfault'⟩ := (hf c.span a c₁).law
    have hcourse := hnext.trans hw
    refine ⟨t :: w ++ w', hcourse.trans hw', ⟨.inl hopens, fun hok => ?_⟩, ?_⟩
    · obtain ⟨b, hb⟩ := Option.isSome_iff_exists.mp hok
      have hlt := (hf c.span a c₁).takes (Prod.ext hb rfl)
      exact (hsealed hok).of_append_right (hw'.passes.ne_nil hlt)
    · exact hfault'.imp_right fun hlt => Nat.lt_of_le_of_lt hcourse.faults_le hlt

theorem law_inside : Law Inside Forward where
  toCore := core_inside
  outer := core_forward
  weaken := Inside.forward
  separator hc := .next (hc ▸ nofun) fun _ _ => trivial
  report e c := ⟨[], .report c e, trivial, .inl rfl⟩
  all stop _ hitem c := by
    obtain ⟨hturns, -⟩ := turns_allWithin stop hitem c.rest.length c (Nat.le_refl _)
    obtain ⟨w, hw⟩ := hturns.course fun c => (hitem c).law
    exact ⟨w, hw, trivial, .inl rfl⟩
  framed := Inside.framed

end Parser
end CarvFront

import CarvFront.Proofs.Phrases

/-! Parsers that derive what they return: on tokens they find nothing wrong with, they read a phrase
of it and nothing more. The rules here put such statements together along the parsers. -/
namespace CarvFront

/-! ### Tokens of a phrase -/

/-- The tokens `ks` start with the phrase `ts`, and `rest` is left of them. Of a token that does
more than close a generic type, the rest is left. -/
inductive Spelt : List Terminal → List Kind → List Kind → Prop
  | nil (ks : List Kind) : Spelt [] ks ks
  | token {k : Kind} {ts : List Terminal} {ks rest : List Kind} (hk : k ≠ .eof)
      (h : Spelt ts ks rest) : Spelt (.token k :: ts) (k :: ks) rest
  | close {ts : List Terminal} {ks rest : List Kind} (h : Spelt ts ks rest) :
      Spelt (.close :: ts) (.sym .greater :: ks) rest
  | closeShr {ts : List Terminal} {ks rest : List Kind} (h : Spelt ts (.sym .greater :: ks) rest) :
      Spelt (.close :: ts) (.sym .shr :: ks) rest
  | closeEq {ts : List Terminal} {ks rest : List Kind} (h : Spelt ts (.sym .eq :: ks) rest) :
      Spelt (.close :: ts) (.sym .greaterEq :: ks) rest

namespace Spelt
variable {ks rest : List Kind}

theorem append {as bs : List Terminal} {mid : List Kind} (h : Spelt as ks mid)
    (h' : Spelt bs mid rest) : Spelt (as ++ bs) ks rest := by
  induction h with
  | nil => exact h'
  | token hk _ ih => exact .token hk (ih h')
  | close _ ih => exact .close (ih h')
  | closeShr _ ih => exact .closeShr (ih h')
  | closeEq _ ih => exact .closeEq (ih h')

theorem length_le {ts : List Terminal} (h : Spelt ts ks rest) : rest.length ≤ ks.length := by
  induction h with
  | nil => exact Nat.le_refl _
  | token _ _ ih | close _ ih => exact Nat.le_succ_of_le ih
  | closeShr _ ih | closeEq _ ih => exact ih

/-- The end is not part of a phrase. -/
theorem takeWhile {ts : List Terminal} (h : Spelt ts ks rest) (hrest : rest.headD .eof = .eof) :
    Spelt ts (ks.takeWhile (· ≠ .eof)) [] := by
  induction h with
  | nil ks =>
    cases ks with
    | nil => exact .nil []
    | cons k ks =>
      rw [List.takeWhile_cons_of_neg (by simpa using hrest)]
      exact .nil []
  | token hk _ ih =>
    rw [List.takeWhile_cons_of_pos (by simpa using hk)]
    exact .token hk (ih hrest)
  | close _ ih =>
    rw [List.takeWhile_cons_of_pos (by simp)]
    exact .close (ih hrest)
  | closeShr _ ih =>
    have hmid := ih hrest
    rw [List.takeWhile_cons_of_pos (by simp)] at hmid ⊢
    exact .closeShr hmid
  | closeEq _ ih =>
    have hmid := ih hrest
    rw [List.takeWhile_cons_of_pos (by simp)] at hmid ⊢
    exact .closeEq hmid

end Spelt

/-! ### Phrases -/

namespace Phrases
variable {p : Prop}

theorem given_of (h : p) : given p = 1 := by
  ext w
  exact ⟨fun hw => hw.2, fun hw => ⟨h, hw⟩⟩

theorem le_given_mul (h : p) {l m : Phrases} (hl : l ≤ m) : l ≤ given p * m := by
  rwa [given_of h, one_mul]

theorem given_mul_le (p : Prop) (l : Phrases) : given p * l ≤ l :=
  mul_le_of_le_one_left' fun _ hw => hw.2

theorem given_not (h : ¬p) : given p = 0 := by
  ext w
  exact ⟨fun hw => absurd hw.1 h, fun hw => absurd hw (Language.notMem_zero w)⟩

theorem singleton_append (ts us : List Terminal) : ({ts ++ us} : Phrases) = {ts} * {us} :=
  Set.image2_singleton.symm

/-- Kinds that end what stands in braces, and a program. -/
def closes (k : Kind) : Prop :=
  k = .sym .rbrace ∨ k = .eof

/-- All phrases start with a token that does not end what is around them. -/
def Starts (L : Phrases) : Prop :=
  ∀ w ∈ L, ∃ k ts, w = .token k :: ts ∧ ¬closes k

end Phrases

namespace Parser
variable {α β : Type}

open Phrases
variable {k : Kind} {L : Phrases}

/-- What a parser does at a cursor: it notes a fault, or it reads a phrase that makes the phrases
`L` in front of it one of what it returns. Which phrases these are may depend on the token that
follows. -/
structure Derives (L : Phrases) (M : α → Kind → Phrases) (c : Cursor) (p : Parser α) : Prop where
  grows : c.faults.length ≤ (p c).2.faults.length
  fails : (p c).1 = none → c.faults.length < (p c).2.faults.length
  reads : ∀ a, (p c).1 = some a → (p c).2.faults.length = c.faults.length →
    ∃ ts, L * {ts} ≤ M a (p c).2.kind ∧ Spelt ts c.kinds (p c).2.kinds

namespace Derives
variable {L L' : Phrases} {M M' : α → Kind → Phrases} {N : β → Kind → Phrases} {c : Cursor}
variable {p : Parser α} {f : β → Parser α}

theorem le (h : Derives L' M c p) (hL : L ≤ L') : Derives L M c p := by
  refine ⟨h.grows, h.fails, fun a ha hlen => ?_⟩
  obtain ⟨ts, hts, hspelt⟩ := h.reads a ha hlen
  exact ⟨ts, (mul_le_mul_left hL _).trans hts, hspelt⟩

theorem imp (h : Derives L M c p) (hM : ∀ a k, M a k ≤ M' a k) : Derives L M' c p := by
  refine ⟨h.grows, h.fails, fun a ha hlen => ?_⟩
  obtain ⟨ts, hts, hspelt⟩ := h.reads a ha hlen
  exact ⟨ts, hts.trans (hM a _), hspelt⟩

theorem pure {a : α} (h : L ≤ M a c.kind) : Derives L M c (Pure.pure a) := by
  refine ⟨Nat.le_refl _, nofun, fun b hb _ => ⟨[], ?_, .nil _⟩⟩
  cases hb
  exact (mul_one L).le.trans h

theorem fail (e : SyntaxError) : Derives L M c (Parser.fail e) := by
  have hlt : c.faults.length < (c.report e).faults.length := by simp [Cursor.report]
  exact ⟨hlt.le, fun _ => hlt, nofun⟩

theorem report (e : SyntaxError) {M : Unit → Kind → Phrases} :
    Derives L M c (Parser.report e) := by
  have hlt : c.faults.length < (c.report e).faults.length := by simp [Cursor.report]
  exact ⟨hlt.le, nofun, fun _ _ hlen => absurd hlen hlt.ne'⟩

/-- A parser that goes on with the phrases `B`. -/
theorem seqBehind {A B : Phrases} {p : Parser β} (hp : Derives B N c p)
    (hf : ∀ b c', p c = (some b, c') → Derives (A * N b c'.kind) M c' (f b)) :
    Derives (A * B) M c (p >>= f) := by
  obtain ⟨hgrows, hfails, hreads⟩ := hp
  rcases hres : p c with ⟨_ | b, c'⟩ <;> rw [hres] at hgrows hfails hreads
  · have hbind := bind_of_none hres f
    refine ⟨?_, ?_, ?_⟩ <;> rw [hbind]
    · exact hgrows
    · exact fun _ => hfails rfl
    · nofun
  · have hbind := bind_of_some hres f
    have hrest := hf b c' hres
    refine ⟨?_, ?_, ?_⟩ <;> rw [hbind]
    · exact hgrows.trans hrest.grows
    · exact fun h => hgrows.trans_lt (hrest.fails h)
    · intro a ha hlen
      have hmid : c'.faults.length = c.faults.length :=
        (hrest.grows.trans_eq hlen).antisymm hgrows
      obtain ⟨ts, hts, hspelt⟩ := hreads b rfl hmid
      obtain ⟨us, hus, hspelt'⟩ := hrest.reads a ha (hlen.trans hmid.symm)
      refine ⟨ts ++ us, ?_, hspelt.append hspelt'⟩
      calc A * B * {ts ++ us} = A * (B * {ts}) * {us} := by
            rw [singleton_append, mul_assoc, mul_assoc, mul_assoc]
        _ ≤ A * N b c'.kind * {us} := by gcongr
        _ ≤ _ := hus

theorem seq {p : Parser β} (hp : Derives 1 N c p)
    (hf : ∀ b c', Derives (L * N b c'.kind) M c' (f b)) : Derives L M c (p >>= f) :=
  (seqBehind hp fun b c' _ => hf b c').le (mul_one L).ge

/-- Parsers that only look at the cursor. -/
theorem look (get : Cursor → β) (h : Derives L M c (f (get c))) :
    Derives L M c ((fun c => (some (get c), c) : Parser β) >>= f) :=
  ⟨h.grows, h.fails, h.reads⟩

theorem peek {f : Kind → Parser α} (h : ∀ k, c.kind = k → Derives L M c (f k)) :
    Derives L M c (Parser.peek >>= f) :=
  look Cursor.kind (h c.kind rfl)

theorem lookAhead (n : Nat) {f : Kind → Parser α}
    (h : ∀ k, c.lookAhead n = k → Derives L M c (f k)) :
    Derives L M c (Parser.lookAhead n >>= f) :=
  look (·.lookAhead n) (h _ rfl)

theorem nested (h : Derives L M { c with depth := c.depth + 1 } p) :
    Derives L M c (Parser.nested p) := by
  by_cases hdepth : maxNesting < c.depth + 1
  · have heq : Parser.nested p c = Parser.fail .nestingLimit c := if_pos hdepth
    obtain ⟨hgrows, hfails, hreads⟩ := Derives.fail (c := c) (L := L) (M := M) .nestingLimit
    rw [← heq] at hgrows hfails hreads
    exact ⟨hgrows, hfails, hreads⟩
  · obtain ⟨hgrows, hfails, hreads⟩ := h
    refine ⟨?_, ?_, ?_⟩ <;> (rw [Parser.nested, if_neg hdepth])
    · exact hgrows
    · exact hfails
    · exact hreads

end Derives

/-! ### Single tokens -/

theorem spelt_next {c : Cursor} (h : c.kind ≠ .eof) :
    Spelt [.token c.kind] c.kinds c.next.kinds := by
  obtain ⟨_ | ⟨t, ts⟩, prev, depth, faults⟩ := c
  · exact absurd rfl h
  · exact .token h (.nil _)

theorem derives_next {c : Cursor} (hk : c.kind = k) (hne : k ≠ .eof) :
    Derives 1 (fun _ _ => tok k) c next := by
  subst hk
  have hfaults : c.next.faults = c.faults := by
    obtain ⟨_ | ⟨t, ts⟩, prev, depth, faults⟩ := c <;> rfl
  refine ⟨(congrArg List.length hfaults).ge, nofun, fun a _ _ => ⟨_, ?_, spelt_next hne⟩⟩
  rw [one_mul]
  exact le_rfl

/-- Past a token that is known, to the one behind it. -/
theorem Derives.next {M : α → Kind → Phrases} {c : Cursor} {f : Span → Parser α} (hk : c.kind = k)
    (hne : k ≠ .eof) (h : Derives (L * tok k) M c.next (f c.span)) :
    Derives L M c (Parser.next >>= f) := by
  refine (Derives.seqBehind (A := L) (derives_next hk hne) ?_).le (mul_one L).ge
  rintro _ _ ⟨⟩
  exact h

theorem derives_eat (hne : k ≠ .eof) (c : Cursor) :
    Derives 1 (fun found _ => upon found (tok k)) c (eat k) := by
  rw [eat_eq]
  refine .look (fun c => decide (c.kind = k)) ?_
  split
  · next hk =>
    refine .seq (derives_next (of_decide_eq_true hk) hne) fun _ _ => .pure ?_
    rw [one_mul]
    exact le_rfl
  · exact .pure le_rfl

theorem derives_expect (hne : k ≠ .eof) (c : Cursor) :
    Derives 1 (fun _ _ => tok k) c (expect k) := by
  refine .peek fun got hk => ?_
  split
  · next heq => exact derives_next (hk.trans heq) hne
  · exact .fail _

variable (c : Cursor)

theorem derives_eat_sym (s : Symbol) :
    Derives 1 (fun found _ => upon found (sign s)) c (eat (.sym s)) :=
  derives_eat (k := .sym s) nofun c

theorem derives_eat_word (w : Keyword) :
    Derives 1 (fun found _ => upon found (key w)) c (eat (.word w)) :=
  derives_eat (k := .word w) nofun c

theorem derives_sym (s : Symbol) : Derives 1 (fun _ _ => sign s) c (sym s) := by
  refine .seq (derives_expect (k := .sym s) nofun c) fun _ _ => .pure ?_
  exact (one_mul _).le

theorem derives_word (w : Keyword) : Derives 1 (fun _ _ => key w) c (word w) := by
  refine .seq (derives_expect (k := .word w) nofun c) fun _ _ => .pure ?_
  exact (one_mul _).le

theorem derives_ident : Derives 1 (fun i _ => called i.name) c ident := by
  refine .peek fun k hk => ?_
  split
  · exact .seq (derives_next hk nofun) fun _ _ => .pure (one_mul _).le
  · exact .fail _

theorem derives_memberName : Derives 1 (fun i _ => nameOrWord i.name) c memberName := by
  refine .peek fun k hk => ?_
  split
  · refine .seq (derives_next hk nofun) fun _ _ => .pure ?_
    rw [one_mul]
    exact fun w hw => .inl hw
  · next w =>
    refine .seq (derives_next hk nofun) fun _ _ => .pure ?_
    rw [one_mul]
    exact fun _ hw => .inr ⟨w, rfl, hw⟩
  · exact .fail _

theorem derives_stringLiteral : Derives 1 (fun s _ => tok (.string s)) c stringLiteral := by
  refine .peek fun k hk => ?_
  split
  · exact .seq (derives_next hk nofun) fun _ _ => .pure (one_mul _).le
  · exact .fail _

/-- A semicolon is left out only at the end of what is around it. -/
theorem derives_semicolon :
    Derives 1 (fun _ k => sign .semicolon + given (closes k)) c semicolon := by
  refine .seq (derives_eat_sym c .semicolon) fun found c' => ?_
  cases found with
  | true => exact .pure ((one_mul _).le.trans le_self_add)
  | false =>
    refine .peek fun k hk => ?_
    split
    · next h =>
      refine .pure ?_
      have hcloses : closes c'.kind := hk ▸ h
      rw [given_of hcloses, upon_false, mul_one]
      exact le_add_self
    · exact .report _

/-! ### Lists -/

theorem commaList_cons (l : Phrases) (ls : List Phrases) :
    l * sign .comma * commaList ls ≤ commaList (l :: ls) := by
  cases ls with
  | nil =>
    rw [commaList, commaList, mul_one]
    exact mul_le_mul_right le_add_self l
  | cons l' ls => exact le_rfl

section
variable {item : Parser α} {N : α → Phrases} (hitem : ∀ c, Derives 1 (fun a _ => N a) c item)
include hitem

theorem derives_itemsWithin (close : Kind) (n : Nat) :
    Derives 1 (fun as _ => commaList (as.map N)) c (itemsWithin close item n) := by
  induction n generalizing c with
  | zero => exact .pure le_rfl
  | succ n ih =>
    refine .peek fun k _ => ?_
    split
    · exact .pure le_rfl
    refine .seq (hitem c) fun a c₁ => .seq (derives_eat_sym c₁ .comma) fun comma c₂ => ?_
    cases comma with
    | true =>
      refine .seq (ih c₂) fun as c₃ => .pure ?_
      rw [one_mul]
      exact commaList_cons _ _
    | false =>
      refine .pure ?_
      rw [one_mul]
      exact mul_le_mul_right le_self_add _

theorem derives_items (close : Symbol) :
    Derives 1 (fun as _ => commaList (as.map N) * sign close) c (items close item) := by
  refine .look (·.rest.length) ?_
  refine .seq (derives_itemsWithin c hitem (.sym close) _) fun as c₁ => ?_
  refine .seq (derives_sym c₁ close) fun _ c₂ => .pure ?_
  rw [one_mul]

end

/-- What may follow an item of a series, by the token behind that. -/
def ending (ended : Bool) (k : Kind) : Phrases :=
  upon ended (sign .semicolon + given (closes k))

theorem series_singleton (l : Phrases) (ended : Bool) (k : Kind) :
    l * ending ended k ≤ series [(l, ended)] := by
  rw [series, ending]
  refine mul_le_mul_right ?_ l
  cases ended with
  | true =>
    have hgiven : given (closes k) ≤ 1 := fun w hw => hw.2
    rw [upon_true, upon_true, add_comm]
    gcongr
  | false => exact le_rfl

theorem series_cons (l : Phrases) (ended : Bool) (hk : ¬closes k) {ls : List (Phrases × Bool)}
    (hls : ls ≠ []) : l * ending ended k * series ls ≤ series ((l, ended) :: ls) := by
  cases ls with
  | nil => exact absurd rfl hls
  | cons l' ls =>
    rw [ending, given_not hk, add_zero]
    exact le_rfl

theorem starts_mul (h : Starts L) (M : Phrases) : Starts (L * M) := by
  intro w hw
  obtain ⟨u, hu, v, hv, rfl⟩ := Language.mem_mul.mp hw
  obtain ⟨k, ts, rfl, hk⟩ := h u hu
  exact ⟨k, ts ++ v, rfl, hk⟩

/-- A phrase that starts with a token starts with the one here. -/
theorem starts_spelt (h : Starts L) {c : Cursor} {ts : List Terminal} {rest : List Kind}
    (hts : ts ∈ L) (hspelt : Spelt ts c.kinds rest) :
    ¬closes c.kind ∧ rest.length < c.rest.length := by
  obtain ⟨k, us, rfl, hk⟩ := h ts hts
  obtain ⟨_ | ⟨t, tokens⟩, prev, depth, faults⟩ := c
  · cases hspelt
  · cases hspelt with
    | token hne hus =>
      have := hus.length_le
      rw [List.length_map] at this
      exact ⟨hk, Nat.lt_succ_of_le this⟩

/-- What is read from a token that does not end what is around it. -/
theorem Derives.guarded {N : α → Phrases} {p : Parser α} (h : Derives 1 (fun a _ => N a) c p)
    (hstart : ∀ a, Starts (N a)) :
    Derives 1 (fun a _ => given (¬closes c.kind) * N a) c p := by
  obtain ⟨hgrows, hfails, hreads⟩ := h
  refine ⟨hgrows, hfails, fun a ha hlen => ?_⟩
  obtain ⟨ts, hts, hspelt⟩ := hreads a ha hlen
  rw [one_mul] at hts
  refine ⟨ts, ?_, hspelt⟩
  rw [one_mul]
  exact le_given_mul (starts_spelt (hstart a) (hts rfl) hspelt).1 hts

theorem starts_series {body : α → Phrases} {ended : α → Bool} (hstart : ∀ a, Starts (body a))
    (a : α) (as : List α) : Starts (series ((a :: as).map fun a => (body a, ended a))) := by
  cases as with
  | nil => exact starts_mul (hstart a) _
  | cons b as => exact starts_mul (starts_mul (hstart a) _) _

section
variable {item : Parser α} {body : α → Phrases} (ended : α → Bool)
  (hitem : ∀ c, Derives 1 (fun a k => body a * ending (ended a) k) c item)
  (hstart : ∀ a, Starts (body a)) (stop : Kind → Bool)
include hitem hstart

/-- The items of a loop that notes no fault are a series. -/
theorem derives_allWithin (n : Nat) :
    c.faults.length ≤ (allWithin stop item n c).2.faults.length ∧
      ((allWithin stop item n c).2.faults.length = c.faults.length →
        ∃ ts ∈ series ((allWithin stop item n c).1.map fun a => (body a, ended a)),
          Spelt ts c.kinds (allWithin stop item n c).2.kinds) := by
  induction n generalizing c with
  | zero => exact ⟨Nat.le_refl _, fun _ => ⟨[], rfl, .nil _⟩⟩
  | succ n ih =>
    by_cases hgo : GoesOn stop c
    · obtain ⟨hgrows, hfails, hreads⟩ := hitem c
      rcases hres : item c with ⟨_ | a, c'⟩ <;> rw [hres] at hgrows hfails hreads
      · rw [allWithin_of_none n hgo hres]
        have hlt := (hfails rfl).trans_le (ih c'.recover).1
        exact ⟨hlt.le, fun h => absurd h hlt.ne'⟩
      · rw [allWithin_of_some n hgo hres]
        obtain ⟨hrest, hrest'⟩ := ih c'
        refine ⟨hgrows.trans hrest, fun hlen => ?_⟩
        have hmid : c'.faults.length = c.faults.length := (hrest.trans_eq hlen).antisymm hgrows
        obtain ⟨ts, hts, hspelt⟩ := hreads a rfl hmid
        obtain ⟨us, hus, hspelt'⟩ := hrest' (hlen.trans hmid.symm)
        refine ⟨ts ++ us, ?_, hspelt.append hspelt'⟩
        rw [one_mul] at hts
        have hmem := Language.append_mem_mul (hts rfl) hus
        cases has : (allWithin stop item n c').1 with
        | nil =>
          rw [has, List.map_nil, series, mul_one] at hmem
          exact series_singleton _ _ _ hmem
        | cons b as =>
          rw [has] at hmem hus
          exact series_cons _ _ (starts_spelt (starts_series hstart b as) hus hspelt').1
            (List.cons_ne_nil _ _) hmem
    · rw [allWithin, if_pos (not_not.mp hgo)]
      exact ⟨Nat.le_refl _, fun _ => ⟨[], rfl, .nil _⟩⟩

theorem derives_all :
    Derives 1 (fun as _ => series (as.map fun a => (body a, ended a))) c (all stop item) := by
  obtain ⟨hgrows, hreads⟩ := derives_allWithin c ended hitem hstart stop c.rest.length
  refine ⟨hgrows, nofun, ?_⟩
  rintro _ ⟨⟩ hlen
  obtain ⟨ts, hts, hspelt⟩ := hreads hlen
  refine ⟨ts, ?_, hspelt⟩
  rw [one_mul]
  rintro _ rfl
  exact hts

/-- A loop with no other stop, and a turn for each token, goes on to the end. -/
theorem kind_allWithin {n : Nat} (hn : c.rest.length ≤ n)
    (hnone : (allWithin (fun _ => false) item n c).2.faults = []) :
    (allWithin (fun _ => false) item n c).2.kind = .eof := by
  induction n generalizing c with
  | zero =>
    obtain ⟨_ | ⟨t, ts⟩, prev, depth, faults⟩ := c
    · rfl
    · exact absurd hn (Nat.not_succ_le_zero _)
  | succ n ih =>
    have hgrows := (derives_allWithin c ended hitem hstart (fun _ => false) (n + 1)).1
    rw [hnone, List.length_nil, Nat.le_zero, List.length_eq_zero_iff] at hgrows
    by_cases hgo : GoesOn (fun _ => false) c
    · obtain ⟨hgrows', hfails, hreads⟩ := hitem c
      rcases hres : item c with ⟨_ | a, c'⟩ <;> rw [hres] at hgrows' hfails hreads
      · rw [allWithin_of_none n hgo hres] at hnone
        have hgrows := (derives_allWithin c'.recover ended hitem hstart (fun _ => false) n).1
        have hlt := (hfails rfl).trans_le hgrows
        rw [hnone] at hlt
        exact absurd hlt (Nat.not_lt_zero _)
      · rw [allWithin_of_some n hgo hres] at hnone ⊢
        have hrest := (derives_allWithin c' ended hitem hstart (fun _ => false) n).1
        have hnone' : (allWithin (fun _ => false) item n c').2.faults = [] := hnone
        rw [hnone', List.length_nil, Nat.le_zero] at hrest
        obtain ⟨ts, hts, hspelt⟩ := hreads a rfl (by rw [hgrows]; exact hrest)
        rw [one_mul] at hts
        have hlt := (starts_spelt (starts_mul (hstart a) _) (hts rfl) hspelt).2
        refine ih c' ?_ hnone'
        simp only [Cursor.kinds, List.length_map] at hlt
        omega
    · rw [allWithin, if_pos (not_not.mp hgo)]
      have hstop := not_not.mp hgo
      simpa [Cursor.full, hgrows, maxErrors] using hstop

end

end Parser
end CarvFront

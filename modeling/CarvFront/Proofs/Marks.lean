import Mathlib.Algebra.Order.Group.Multiset
import CarvFront.Check.Annotation
import CarvFront.Proofs.InnerTypes
import CarvFront.Proofs.Occurrences
import CarvFront.Proofs.Outline
import CarvFront.Proofs.Purse

/-! Marks of a tree: every name in an annotation and every function or method stands where a token did
that was read for it alone. A parser gives no more of them than it has passed tokens. -/
namespace CarvFront

/-! ### Names and functions of a tree -/

/-- The names in the annotations of a node, without those of the code inside it. -/
@[simp] def Node.mentions : Node → List Ident
  | .expr (.lambda _ sig _) | .stmt (.fn _ _ sig _) => sig.names
  | .stmt (.bind _ _ _ type _) => (type.map TypeExpr.names).getD []
  | .stmt (.classDecl _ _ fields ms) => fields.flatMap (·.type.names) ++ ms.flatMap (·.sig.names)
  | .stmt (.interfaceDecl _ _ heads) => heads.flatMap (·.sig.names)
  | .stmt (.implDecl _ _ _ ms) => ms.flatMap (·.sig.names)
  | _ => []

/-- The spans of the functions and methods that a node declares. -/
@[simp] def Node.signedSpans : Node → List Span
  | .expr _ => []
  | .stmt s => s.signed.map Prod.fst

/-- The names in all annotations. -/
def mentions (os : List Occurrence) : List Ident :=
  os.flatMap (·.node.mentions)

/-- The spans of all functions and methods. -/
def signedSpans (os : List Occurrence) : List Span :=
  os.flatMap (·.node.signedSpans)

/-- Where names stand. -/
def places (names : List Ident) : Multiset Position :=
  ↑(names.map (·.span.start))

@[simp] theorem places_nil : places [] = 0 := rfl

@[simp] theorem places_append (ns ms : List Ident) : places (ns ++ ms) = places ns + places ms := by
  simp [places]

@[simp] theorem places_flatMap {α : Type} (f : α → List Ident) (as : List α) :
    places (as.flatMap f) = (as.map fun a => places (f a)).sum := by
  induction as with
  | nil => rfl
  | cons a as ih => simp [ih]

theorem TypeExpr.namesAll_eq_flatMap (ts : List TypeExpr) : namesAll ts = ts.flatMap names := by
  induction ts with
  | nil => rfl
  | cons t ts ih => rw [namesAll, ih, List.flatMap_cons]

/-- Where the names in annotations and the functions and methods stand. -/
def marks (os : List Occurrence) : Multiset Position :=
  places (mentions os) + ↑((signedSpans os).map Span.start)

/-- What a node adds to the marks of the code inside it. -/
@[simp] def Node.marks (n : Node) : Multiset Position :=
  places n.mentions + ↑(n.signedSpans.map Span.start)

@[simp] theorem marks_nil : marks [] = 0 := rfl

@[simp] theorem marks_cons (o : Occurrence) (os : List Occurrence) :
    marks (o :: os) = o.node.marks + marks os := by
  simp only [marks, Node.marks, mentions, signedSpans, List.flatMap_cons, places_append,
    List.map_append, ← Multiset.coe_add]
  exact add_add_add_comm _ _ _ _

@[simp] theorem marks_append (os os' : List Occurrence) :
    marks (os ++ os') = marks os + marks os' := by
  induction os with
  | nil => simp
  | cons o os ih => simp [ih, add_assoc]

/-! ### Cursors -/

/-- Tokens that may be the name in an annotation or the head of a function. -/
def Kind.isMark : Kind → Bool
  | .ident _ | .word .fnKw | .word .asyncKw => true
  | _ => false

namespace Cursor

/-- The span of the token before the place, and those of the tokens behind it. -/
def spans (c : Cursor) : List Span :=
  c.prev :: c.rest.map Token.span

/-- Where the tokens stand that are left for names and functions. -/
def marks (c : Cursor) : Multiset Position :=
  ↑((c.rest.filter (·.kind.isMark)).map (·.span.start))

/-- Reading has gone on: tokens were passed, and none came back. -/
structure Onward (c c' : Cursor) : Prop where
  spans : c'.spans.Sublist c.spans
  marks : c'.marks ≤ c.marks

/-- Tokens start one behind the other, and none that matters from here on in front of `lo`. -/
structure Sorted (lo : Position) (c : Cursor) : Prop where
  order : (c.rest.map Token.span).Pairwise fun s t => s.start ≤ t.start
  least : ∀ s ∈ c.spans, lo ≤ s.start

variable {lo : Position} {c c' c'' : Cursor}

theorem Onward.refl (c : Cursor) : c.Onward c :=
  ⟨.refl _, le_rfl⟩

theorem Onward.trans (h : c.Onward c') (h' : c'.Onward c'') : c.Onward c'' :=
  ⟨h'.spans.trans h.spans, h'.marks.trans h.marks⟩

/-- Fewer tokens are left. -/
theorem Onward.of_sublist (hs : c'.spans.Sublist c.spans) (ht : c'.rest.Sublist c.rest) :
    c.Onward c' :=
  ⟨hs, Multiset.coe_le.mpr ((ht.filter _).map _).subperm⟩

theorem onward_next (c : Cursor) : c.Onward c.next := by
  obtain ⟨_ | ⟨t, ts⟩, prev, depth, faults⟩ := c
  · exact .refl _
  · exact .of_sublist (List.sublist_cons_self _ _) (List.sublist_cons_self t ts)

theorem onward_report (c : Cursor) (e : SyntaxError) : c.Onward (c.report e) :=
  ⟨.refl _, le_rfl⟩

theorem spans_skipTo (moved : Bool) (ts : List Token) (prev : Span) :
    ((skipTo moved ts prev).2 :: (skipTo moved ts prev).1.map Token.span).Sublist
      (prev :: ts.map Token.span) :=
  skipTo_rel (R := fun ts prev us last =>
    (last :: us.map Token.span).Sublist (prev :: ts.map Token.span)) (fun _ _ => .refl _)
    (fun h => h.cons _) moved ts prev

theorem onward_recover (c : Cursor) : c.Onward c.recover :=
  .of_sublist (spans_skipTo false c.rest c.prev) (skipTo_suffix false c.rest c.prev).sublist

theorem Sorted.onward (h : c.Sorted lo) (hc : c.Onward c') : c'.Sorted lo :=
  ⟨h.order.sublist hc.spans.of_cons_cons, fun s hs => h.least s (hc.spans.mem hs)⟩

theorem mem_span (c : Cursor) : c.span ∈ c.spans := by
  obtain ⟨_ | ⟨t, ts⟩, prev, depth, faults⟩ := c <;> simp [span, spans]

/-- Behind a token nothing starts in front of it. -/
theorem Sorted.next (h : c.Sorted lo) : c.next.Sorted c.span.start := by
  obtain ⟨order, -⟩ := h.onward (onward_next c)
  refine ⟨order, ?_⟩
  obtain ⟨_ | ⟨t, ts⟩, prev, depth, faults⟩ := c
  · simp [Cursor.next, spans, span]
  · have hbehind := List.pairwise_cons.mp h.order
    simpa [Cursor.next, spans, span] using hbehind.1

theorem marks_next (h : c.kind.isMark = true) : c.marks = {c.span.start} + c.next.marks := by
  obtain ⟨_ | ⟨t, ts⟩, prev, depth, faults⟩ := c
  · cases h
  · have hfilter : (t :: ts).filter (·.kind.isMark) = t :: ts.filter (·.kind.isMark) :=
      List.filter_cons_of_pos h
    simp [marks, hfilter, span, Cursor.next]

end Cursor

namespace Parser
variable {lo : Position} {α β : Type}

/-- A parser goes on, also where it fails. -/
def Steady ⦃α : Type⦄ (p : Parser α) : Prop :=
  ∀ c : Cursor, c.Onward (p c).2

theorem steady_become (s : Symbol) : Steady (become (.sym s)) := by
  rintro ⟨_ | ⟨t, ts⟩, prev, depth, faults⟩
  · exact .refl _
  · refine ⟨.refl _, Multiset.coe_le.mpr (List.Sublist.subperm ?_)⟩
    have hfilter : (⟨.sym s, t.span⟩ :: ts).filter (·.kind.isMark) = ts.filter (·.kind.isMark) :=
      List.filter_cons_of_neg nofun
    have hsub : (ts.filter (·.kind.isMark)).Sublist ((t :: ts).filter (·.kind.isMark)) :=
      (List.sublist_cons_self t ts).filter _
    exact (hfilter ▸ hsub).map _

theorem steady_fail (e : SyntaxError) : Steady (fail e : Parser α) :=
  fun c => c.onward_report e

theorem onward_course : Course Cursor.Onward where
  refl := .refl
  trans := .trans
  report e _ c := c.onward_report e
  next := Cursor.onward_next
  become s _ := steady_become s
  inside h := ⟨h.spans, h.marks⟩
  recover := Cursor.onward_recover

theorem steady_steps : Steps Steady :=
  onward_course.steps

theorem steady_closed : Closed (Alone Steady) :=
  steady_steps.closed steady_fail

/-! ### What a parser gives -/

/-- From `lo` on, tokens pay for marks. -/
def markPurse (lo : Position) : Purse (Multiset Position) where
  Fits := Cursor.Sorted lo
  Leads := Cursor.Onward
  worth := Cursor.marks
  course := onward_course
  fits h hc := h.onward hc
  worth_le hc := hc.marks

/-- What a parser gives from `lo` on has `Q`, for marks that it has passed. -/
def Owns (lo : Position) (p : Parser α) (Q : Multiset Position → α → Prop) : Prop :=
  (markPurse lo).Spends p Q

/-- What a parser gives that starts right here has `Q`, for the place and for marks that it has
passed. -/
def Opens (p : Parser α) (Q : Position → Multiset Position → α → Prop) : Prop :=
  ∀ (lo : Position) (c : Cursor), c.Sorted lo → ∀ a c', p c = (some a, c') →
    c.Onward c' ∧ c'.Sorted c.span.start ∧ ∃ s, s + c'.marks ≤ c.marks ∧ Q c.span.start s a

namespace Owns
variable {p : Parser α} {Q : Multiset Position → α → Prop} {R : Multiset Position → β → Prop}

theorem start {f : Span → Parser β} (hf : ∀ span, lo ≤ span.start → Owns lo (f span) R) :
    Owns lo (here >>= f) R := by
  refine .step steady_steps.here (fun c hc span hspan => ?_) hf
  cases hspan
  exact hc.least _ c.mem_span

theorem stop {f : Span → Parser β} (hf : ∀ span, lo ≤ span.start → Owns lo (f span) R) :
    Owns lo (before >>= f) R := by
  refine .step steady_steps.before (fun c hc span hspan => ?_) hf
  cases hspan
  exact hc.least _ List.mem_cons_self

theorem nested (h : Owns lo p Q) : Owns lo (nested p) Q := by
  intro c hc a c' heq
  unfold Parser.nested at heq
  split at heq
  · cases heq
  · rcases hres : p { c with depth := c.depth + 1 } with ⟨res, c''⟩
    rw [hres] at heq
    cases heq
    have hdeeper : ({ c with depth := c.depth + 1 } : Cursor).Sorted lo := ⟨hc.order, hc.least⟩
    obtain ⟨⟨hspans, hmarks⟩, hs⟩ := h _ hdeeper a c'' hres
    exact ⟨⟨hspans, hmarks⟩, hs⟩

/-- What starts at the token here goes on behind it. -/
theorem opens {Q : Position → Multiset Position → α → Prop} {f : Span → α → Parser β}
    (hp : Opens p Q)
    (hf : ∀ start a s, lo ≤ start.start → Q start.start s a →
      Owns start.start (f start a) fun s' b => R (s + s') b) :
    Owns lo (Parser.here >>= fun start => p >>= f start) R := by
  intro c hc b c'' heq
  have hhere : Parser.here c = (some c.span, c) := rfl
  rw [bind_of_some hhere] at heq
  rcases hres : p c with ⟨_ | a, c'⟩
  · rw [bind_of_none hres] at heq
    cases heq
  · rw [bind_of_some hres] at heq
    obtain ⟨hon, hsorted, s, hs, hq⟩ := hp lo c hc a c' hres
    obtain ⟨hon', s', hs', hr⟩ :=
      hf c.span a s (hc.least _ c.mem_span) hq c' hsorted b c'' heq
    refine ⟨hon.trans hon', s + s', ?_, hr⟩
    rw [add_assoc]
    exact (add_le_add_right hs' s).trans hs

theorem kind_of_word {w : Keyword} {g : Unit → Parser β} {c c' : Cursor} {b : β}
    (h : (word w >>= g) c = (some b, c')) : c.kind = .word w ∧ g () c.next = (some b, c') := by
  by_cases hk : c.kind = .word w
  · have hword : word w c = (some (), c.next) := by
      rw [word, bind_of_some (expect_of_kind hk)]
      rfl
    rw [bind_of_some hword] at h
    exact ⟨hk, h⟩
  · have hword : word w c = (none, c.report (.expected (.token (.word w)) c.kind)) := by
      rw [word, bind_of_none (expect_of_other hk)]
    rw [bind_of_none hword] at h
    cases h

/-- The head of a function or method, which is a mark at the place where it starts. -/
theorem head {f : Span → Bool → Parser β}
    (hf : ∀ start async, lo ≤ start.start →
      Owns start.start (f start async) fun s b => R ({start.start} + s) b) :
    Owns lo (do
      let start ← Parser.here
      let async ← eat (.word .asyncKw)
      word .fnKw
      f start async) R := by
  intro c hc b c' heq
  have hhere : Parser.here c = (some c.span, c) := rfl
  rw [bind_of_some hhere] at heq
  have hrest {async : Bool} {d : Cursor} (hmark : c.kind.isMark = true) (hon : c.next.Onward d)
      (hd : f c.span async d = (some b, c')) :
      c.Onward c' ∧ ∃ s, s + c'.marks ≤ c.marks ∧ R s b := by
    have hstart := hc.least _ c.mem_span
    obtain ⟨hon', s, hs, hr⟩ := hf c.span async hstart d (hc.next.onward hon) b c' hd
    refine ⟨c.onward_next.trans (hon.trans hon'), {c.span.start} + s, ?_, hr⟩
    rw [c.marks_next hmark, add_assoc]
    exact add_le_add_right (hs.trans hon.marks) _
  by_cases hasync : c.kind = .word .asyncKw
  · have heat : eat (.word .asyncKw) c = (some true, c.next) := if_pos hasync
    rw [bind_of_some heat] at heq
    obtain ⟨-, hbody⟩ := kind_of_word heq
    exact hrest (by rw [hasync]; rfl) c.next.onward_next hbody
  · have heat : eat (.word .asyncKw) c = (some false, c) := if_neg hasync
    rw [bind_of_some heat] at heq
    obtain ⟨hfn, hbody⟩ := kind_of_word heq
    exact hrest (by rw [hfn]; rfl) (.refl _) hbody

end Owns

namespace Opens
variable {p : Parser α} {f : Span → Parser α} {Q : Position → Multiset Position → α → Prop}

theorem fail (e : SyntaxError) : Opens (fail e) Q := by
  rintro lo c - _ _ heq
  cases heq

theorem next (hf : ∀ span, Owns span.start (f span) (Q span.start)) : Opens (next >>= f) Q := by
  intro lo c hc a c' heq
  have hnext : Parser.next c = (some c.span, c.next) := rfl
  rw [bind_of_some hnext] at heq
  obtain ⟨hon, s, hs, hq⟩ := hf c.span c.next hc.next a c' heq
  have hmarks := c.onward_next.marks
  exact ⟨c.onward_next.trans hon, hc.next.onward hon, s, hs.trans hmarks, hq⟩

theorem onlyAt (k : Kind) (hp : Opens p Q) : Opens (onlyAt k p) Q := by
  intro lo c hc a c' heq
  unfold Parser.onlyAt at heq
  split at heq
  · exact hp lo c hc a c' heq
  · cases heq

/-- What a parser gives that starts with a mark may have a mark there. -/
theorem mark {k : Kind} (hk : k.isMark = true)
    (hf : ∀ span, Owns span.start (f span) fun s a =>
      Q span.start s a ∨ Q span.start ({span.start} + s) a) :
    Opens (Parser.onlyAt k (Parser.next >>= f)) Q := by
  intro lo c hc a c' heq
  unfold Parser.onlyAt at heq
  split at heq
  · next hkind =>
    have hnext : Parser.next c = (some c.span, c.next) := rfl
    rw [bind_of_some hnext] at heq
    obtain ⟨hon, s, hs, hq⟩ := hf c.span c.next hc.next a c' heq
    have hmarks : {c.span.start} + s + c'.marks ≤ c.marks := by
      rw [c.marks_next (hkind ▸ hk), add_assoc]
      exact add_le_add_right hs _
    refine ⟨c.onward_next.trans hon, hc.next.onward hon, ?_⟩
    rcases hq with hq | hq
    · exact ⟨s, hs.trans c.onward_next.marks, hq⟩
    · exact ⟨_, hmarks, hq⟩
  · cases heq

theorem peek {f : Kind → Parser α} (hf : ∀ k, Opens (Parser.onlyAt k (f k)) Q) :
    Opens (peek >>= f) Q := by
  rw [peek_onlyAt]
  intro lo c hc a c' heq
  have hpeek : Parser.peek c = (some c.kind, c) := rfl
  rw [bind_of_some hpeek] at heq
  exact hf c.kind lo c hc a c' heq

end Opens

/-! ### Lists -/

/-- What a parser gives has the marks `f`, and those it has passed. -/
def Bears (lo : Position) (f : List Enclosure → α → Multiset Position) (p : Parser α) : Prop :=
  Owns lo p fun s a => ∀ around, f around a = s

section Lists
variable {f : List Enclosure → α → Multiset Position} {item : Parser α}

theorem sum_cons (s : Multiset Position) (a : α) (s' : Multiset Position) (as : List α)
    (ha : ∀ around, f around a = s) (has : ∀ around, (as.map (f around)).sum = s')
    (around : List Enclosure) : ((a :: as).map (f around)).sum = s + s' := by
  rw [List.map_cons, List.sum_cons, ha, has]

theorem bears_items (close : Symbol) (hitem : Bears lo f item) :
    Bears lo (fun around as => (as.map (f around)).sum) (items close item) :=
  .items hitem (fun _ => rfl) sum_cons close

theorem bears_all (stop : Kind → Bool) (hitem : Bears lo f item) (hsteady : Steady item) :
    Bears lo (fun around as => (as.map (f around)).sum) (all stop item) :=
  .all hitem (fun _ => rfl) sum_cons stop hsteady

end Lists
end Parser
end CarvFront

import CarvFront.Proofs.Passing

/-! What is read does not depend on what stands behind the end of a statement, on the faults found
before, or on the place of that end. -/
namespace CarvFront

/-- Tokens that may stand behind others: they begin with an end of the same kind. -/
structure Behind (xs ys : List Token) : Prop where
  kind : firstKind ys = firstKind xs
  ends : (firstKind xs).ends = true

/-- Two cursors before the same tokens, with `xs` behind them for one and `ys` for the other, which
has `k` faults more. -/
structure Cursor.Twin (xs ys : List Token) (k : Nat) (c d : Cursor) : Prop where
  rest : ∃ us, c.rest = us ++ xs ∧ d.rest = us ++ ys
  prev : d.prev = c.prev
  depth : d.depth = c.depth
  faults : d.faults.length = c.faults.length + k

namespace Cursor.Twin
variable {xs ys : List Token} {k : Nat} {c d : Cursor}

section
variable (h : c.Twin xs ys k d)
include h

theorem kind (hb : Behind xs ys) : d.kind = c.kind := by
  obtain ⟨us, hc, hd⟩ := h.rest
  rw [c.kind_eq, d.kind_eq, hc, hd]
  cases us with
  | nil => exact hb.kind
  | cons t us => rfl

theorem length_lt (hb : Behind xs ys) (hc : c.kind.ends = false) : xs.length < c.rest.length := by
  obtain ⟨us, hxs, -⟩ := h.rest
  cases us with
  | nil =>
    rw [c.kind_eq, hxs] at hc
    exact absurd hb.ends (by rw [← List.nil_append xs, hc]; decide)
  | cons t us =>
    rw [hxs, List.cons_append, List.length_cons, List.length_append]
    omega

/-- Before what differs both are at the same token. -/
theorem cons (hlt : xs.length < c.rest.length) :
    ∃ t us, c.rest = t :: (us ++ xs) ∧ d.rest = t :: (us ++ ys) := by
  obtain ⟨us, hxs, hys⟩ := h.rest
  cases us with
  | nil => exact absurd hlt (hxs ▸ Nat.lt_irrefl _)
  | cons t us => exact ⟨t, us, hxs, hys⟩

theorem span (hlt : xs.length < c.rest.length) : d.span = c.span := by
  obtain ⟨t, us, hxs, hys⟩ := h.cons hlt
  rw [c.span_eq, d.span_eq, hxs, hys]
  rfl

theorem next (hlt : xs.length < c.rest.length) : c.next.Twin xs ys k d.next := by
  obtain ⟨t, us, hxs, hys⟩ := h.cons hlt
  obtain ⟨_, prev, depth, faults⟩ := c
  obtain ⟨_, prev', depth', faults'⟩ := d
  cases hxs
  cases hys
  exact ⟨⟨us, rfl, rfl⟩, rfl, h.depth, h.faults⟩

theorem length_eq : d.rest.length + xs.length = c.rest.length + ys.length := by
  obtain ⟨us, hxs, hys⟩ := h.rest
  rw [hxs, hys, List.length_append, List.length_append]
  omega

theorem report (e : SyntaxError) : (c.report e).Twin xs ys k (d.report e) := by
  refine ⟨h.rest, h.prev, h.depth, ?_⟩
  have hfaults := h.faults
  simp only [Cursor.report, List.length_append, List.length_singleton]
  omega

theorem lookAhead (hb : Behind xs ys) {n : Nat} (hc : ∀ m < n, (c.lookAhead m).ends = false) :
    d.lookAhead n = c.lookAhead n := by
  induction n generalizing c d with
  | zero => rw [lookAhead_zero, lookAhead_zero, h.kind hb]
  | succ n ih =>
    have hhere := hc 0 (Nat.succ_pos n)
    rw [lookAhead_zero] at hhere
    rw [← lookAhead_next, ← lookAhead_next]
    refine ih (h.next (h.length_lt hb hhere)) fun m hm => ?_
    rw [lookAhead_next]
    exact hc (m + 1) (Nat.succ_lt_succ hm)

theorem become (hb : Behind xs ys) {k' : Kind} (hc : c.kind.Splits k') :
    (Parser.become k' c).2.Twin xs ys k (Parser.become k' d).2 := by
  obtain ⟨t, us, hxs, hys⟩ := h.cons (h.length_lt hb hc.ends)
  obtain ⟨_, prev, depth, faults⟩ := c
  obtain ⟨_, prev', depth', faults'⟩ := d
  cases hxs
  cases hys
  exact ⟨⟨{ t with kind := k' } :: us, rfl, rfl⟩, h.prev, h.depth, h.faults⟩

end

/-- Recovery does the same as long as it stays before the end. -/
theorem skipTo (hb : Behind xs ys) (moved : Bool) (us : List Token) (prev : Span)
    (hrest : xs.length ≤ (Cursor.skipTo moved (us ++ xs) prev).1.length) :
    ∃ vs, (Cursor.skipTo moved (us ++ xs) prev).1 = vs ++ xs ∧
      Cursor.skipTo moved (us ++ ys) prev =
        (vs ++ ys, (Cursor.skipTo moved (us ++ xs) prev).2) := by
  induction us generalizing moved prev with
  | nil =>
    refine ⟨[], ?_⟩
    rcases Kind.ends_iff.mp hb.ends with heof | hsemi
    · have hstay {ts : List Token} (hts : firstKind ts = .eof) :
          Cursor.skipTo moved ts prev = (ts, prev) := by
        cases ts with
        | nil => rfl
        | cons t ts => exact if_pos hts
      rw [List.nil_append, List.nil_append, hstay heof, hstay (hb.kind.trans heof)]
      exact ⟨rfl, rfl⟩
    · -- the end would have been passed
      obtain _ | ⟨t, xs⟩ := xs
      · cases hsemi
      · change t.kind = _ at hsemi
        rw [List.nil_append, Cursor.skipTo, hsemi, if_neg (by simp), if_pos rfl] at hrest
        exact absurd hrest (Nat.not_succ_le_self _)
  | cons t us ih =>
    simp only [List.cons_append] at hrest ⊢
    rcases Cursor.skipTo_cons moved t with ⟨-, hskip⟩ | ⟨-, hskip⟩ | ⟨-, hskip⟩ <;>
      simp only [hskip] at hrest ⊢
    · exact ⟨t :: us, rfl, rfl⟩
    · exact ⟨us, rfl, rfl⟩
    · exact ih true t.span hrest

theorem recover (h : c.Twin xs ys k d) (hb : Behind xs ys)
    (hrest : xs.length ≤ c.recover.rest.length) : c.recover.Twin xs ys k d.recover := by
  obtain ⟨us, hc, hd⟩ := h.rest
  have hskip := skipTo hb false us c.prev
  rw [← hc] at hskip
  obtain ⟨vs, hvs, hskip⟩ := hskip hrest
  have hrecover : Cursor.skipTo false d.rest d.prev = (vs ++ ys, c.recover.prev) := by
    rw [hd, h.prev]
    exact hskip
  exact ⟨⟨vs, hvs, congrArg Prod.fst hrecover⟩, (Prod.ext_iff.mp hrecover).2, h.depth, h.faults⟩

end Cursor.Twin

namespace Parser
variable {α β : Type}

/-- What a parser does up to the end of a statement does not depend on what stands there. -/
structure Local ⦃α : Type⦄ (c : Cursor) (p : Parser α) : Prop where
  forward : Forward c p
  agrees {xs ys : List Token} {k : Nat} {d c' : Cursor} {res : Option α} (hb : Behind xs ys)
    (h : c.Twin xs ys k d) (heq : p c = (res, c')) (hrest : xs.length ≤ c'.rest.length)
    (hfaults : c'.faults.length + k < maxErrors) : ∃ d', p d = (res, d') ∧ c'.Twin xs ys k d'

namespace Local
variable {c : Cursor}

theorem course {p : Parser α} (h : Local c p) {res : Option α} {c' : Cursor}
    (heq : p c = (res, c')) : ∃ w, c.Course w c' := by
  obtain ⟨w, hw, -⟩ := h.forward
  rw [heq] at hw
  exact ⟨w, hw⟩

theorem bind {p : Parser α} {f : α → Parser β} (hp : Local c p)
    (hf : ∀ a c', p c = (some a, c') → Local c' (f a)) : Local c (p >>= f) := by
  refine ⟨core_forward.bind hp.forward fun a c' heq => (hf a c' heq).forward, ?_⟩
  intro xs ys k d c₂ res hb h heq hrest hfaults
  rcases hres : p c with ⟨_ | a, c₁⟩
  · rw [bind_of_none hres] at heq
    cases heq
    obtain ⟨d₁, hd₁, htwin⟩ := hp.agrees hb h hres hrest hfaults
    exact ⟨d₁, bind_of_none hd₁ f, htwin⟩
  · rw [bind_of_some hres] at heq
    have hthen := hf a c₁ hres
    obtain ⟨w, hw⟩ := hthen.course heq
    have hle := hw.passes.length_le
    have hle' := hw.faults_le
    obtain ⟨d₁, hd₁, htwin⟩ := hp.agrees hb h hres (by omega) (by omega)
    obtain ⟨d₂, hd₂, htwin'⟩ := hthen.agrees hb htwin heq hrest hfaults
    exact ⟨d₂, (bind_of_some hd₁ f).trans hd₂, htwin'⟩

/-- What is seen is the same, and the cursor stays. -/
theorem look (get : Cursor → α) (hget : ∀ {xs ys : List Token} {k : Nat} {d : Cursor},
    Behind xs ys → c.Twin xs ys k d → get d = get c) :
    Local c (fun c => (some (get c), c)) := by
  refine ⟨.look gathers_true get c, ?_⟩
  intro xs ys k d c' res hb h heq _ _
  cases heq
  exact ⟨d, by rw [hget hb h], h⟩

theorem next (hc : c.kind ≠ .eof) : Local c next := by
  refine ⟨.next hc fun _ _ => trivial, ?_⟩
  intro xs ys k d c' res hb h heq hrest _
  cases heq
  have hlt := Nat.lt_of_le_of_lt hrest (Cursor.length_next_lt hc)
  exact ⟨d.next, by rw [Parser.next, h.span hlt], h.next hlt⟩

theorem here {f : Span → Parser β} (hf : Local c (f c.span))
    (hend : c.kind.ends = true → ∀ s s' c', c'.kind = c.kind → f s c' = f s' c') :
    Local c (here >>= f) := by
  refine ⟨hf.forward, ?_⟩
  intro xs ys k d c' res hb h heq hrest hfaults
  have hsame : f d.span d = f c.span d := by
    cases hends : c.kind.ends with
    | true => exact hend hends _ _ _ (h.kind hb)
    | false => rw [h.span (h.length_lt hb hends)]
  obtain ⟨d', hd', htwin⟩ := hf.agrees hb h heq hrest hfaults
  exact ⟨d', hsame.trans hd', htwin⟩

theorem remaining {F : Nat → Parser β} (hF : ∀ n, Local c (F n)) (hs : Stable F) :
    Local c (remaining >>= F) := by
  refine ⟨(hF _).forward, ?_⟩
  intro xs ys k d c' res hb h heq hrest hfaults
  have hc := hs c c.rest.length (max c.rest.length d.rest.length) (by omega) (by omega)
  have hd := hs d d.rest.length (max c.rest.length d.rest.length) (by omega) (by omega)
  obtain ⟨d', hd', htwin⟩ := (hF _).agrees hb h (hc.symm.trans heq) hrest hfaults
  exact ⟨d', hd.trans hd', htwin⟩

theorem nested {p : Parser α} (hp : Local { c with depth := c.depth + 1 } p) :
    Local c (nested p) := by
  refine ⟨core_forward.nested hp.forward, ?_⟩
  intro xs ys k d c' res hb h heq hrest hfaults
  unfold Parser.nested at heq ⊢
  rw [h.depth]
  split at heq
  · next hdepth =>
    cases heq
    rw [if_pos hdepth]
    exact ⟨_, rfl, h.report _⟩
  · next hdepth =>
    cases heq
    rw [if_neg hdepth]
    have hin : ({ c with depth := c.depth + 1 } : Cursor).Twin xs ys k
        { d with depth := c.depth + 1 } := ⟨h.rest, h.prev, rfl, h.faults⟩
    obtain ⟨d', hd', htwin⟩ := hp.agrees hb hin rfl hrest hfaults
    refine ⟨{ d' with depth := d'.depth - 1 }, ?_, htwin.rest, htwin.prev, ?_, htwin.faults⟩
    · simp only [hd']
    · exact congrArg (· - 1) htwin.depth

theorem fail (e : SyntaxError) : Local c (fail e : Parser α) := by
  refine ⟨core_forward.fail e c, ?_⟩
  intro xs ys k d c' res _ h heq _ _
  cases heq
  exact ⟨_, rfl, h.report e⟩

theorem report (e : SyntaxError) : Local c (report e) := by
  refine ⟨law_inside.report e c, ?_⟩
  intro xs ys k d c' res _ h heq _ _
  cases heq
  exact ⟨_, rfl, h.report e⟩

theorem become {k' : Kind} (hc : c.kind.Splits k') : Local c (become k') := by
  refine ⟨core_forward.become hc, ?_⟩
  intro xs ys k d c' res hb h heq _ _
  have htwin := h.become hb hc
  have hsome (c : Cursor) : Parser.become k' c = (some (), (Parser.become k' c).2) := by
    obtain ⟨_ | ⟨t, ts⟩, prev, depth, faults⟩ := c <;> rfl
  rw [hsome c] at heq
  cases heq
  exact ⟨_, hsome d, htwin⟩

end Local

theorem core_local : Core Local where
  shrinks hp := core_forward.shrinks hp.forward
  pure a _ := .look (fun _ => a) fun _ _ => rfl
  bind := .bind
  fail e _ := .fail e
  peek _ := .look Cursor.kind fun hb h => h.kind hb
  lookAhead hc := .look (·.lookAhead _) fun hb h => h.lookAhead hb hc
  here := .here
  before _ := .look Cursor.prev fun _ h => h.prev
  remaining := .remaining
  next hc := .next (Kind.ne_eof_of_ends hc)
  become := .become
  nested := .nested

theorem goesOn_iff {xs ys : List Token} {k : Nat} {c d : Cursor} (h : c.Twin xs ys k d)
    (hb : Behind xs ys) (hfaults : c.faults.length + k < maxErrors) (stop : Kind → Bool) :
    GoesOn stop d ↔ GoesOn stop c := by
  have hc : c.full = false := decide_eq_false (by omega)
  have hd : d.full = false := decide_eq_false (by rw [h.faults]; omega)
  rw [GoesOn, GoesOn, h.kind hb, hc, hd]

/-- A list of items is read alike, turn by turn. -/
theorem Turns.twin {stop : Kind → Bool} {item : Parser α} (hitem : ∀ c, Local c item)
    {xs ys : List Token} {k : Nat} {c d last : Cursor} {as : List α} (h : Turns stop item c as last)
    (hb : Behind xs ys) (htwin : c.Twin xs ys k d) (hrest : xs.length ≤ last.rest.length)
    (hfaults : last.faults.length + k < maxErrors) :
    ∃ last', Turns stop item d as last' ∧ last.Twin xs ys k last' := by
  induction h generalizing d with
  | nil c => exact ⟨d, .nil d, htwin⟩
  | @read c c' last a as hc ha hlt h ih =>
    obtain ⟨w, hw⟩ := (hitem c).course ha
    obtain ⟨w', hw'⟩ := h.course fun c => (hitem c).forward
    have hlen := hw'.passes.length_le
    have hle := hw.faults_le
    have hle' := hw'.faults_le
    obtain ⟨d', hd', htwin'⟩ := (hitem c).agrees hb htwin ha (by omega) (by omega)
    obtain ⟨last', hlast', hend⟩ := ih htwin' hrest hfaults
    have hgo := (goesOn_iff htwin hb (by omega) stop).mpr hc
    have hlen₁ := htwin.length_eq
    have hlen₂ := htwin'.length_eq
    exact ⟨last', .read hgo hd' (by omega) hlast', hend⟩
  | @skip c c' last as hc hnone hlt h ih =>
    obtain ⟨w, hw⟩ := (hitem c).course hnone
    obtain ⟨w', hw', -⟩ := c'.course_recover
    obtain ⟨w'', hw''⟩ := h.course fun c => (hitem c).forward
    have hlen := hw'.passes.length_le
    have hlen' := hw''.passes.length_le
    have hle := hw.faults_le
    have hle' := hw'.faults_le
    have hle'' := hw''.faults_le
    obtain ⟨d', hd', htwin'⟩ := (hitem c).agrees hb htwin hnone (by omega) (by omega)
    have hrecover := htwin'.recover hb (by omega)
    obtain ⟨last', hlast', hend⟩ := ih hrecover hrest hfaults
    have hgo := (goesOn_iff htwin hb (by omega) stop).mpr hc
    have hlen₁ := htwin.length_eq
    have hlen₂ := hrecover.length_eq
    exact ⟨last', .skip hgo hd' (by omega) hlast', hend⟩

theorem Local.all (stop : Kind → Bool) {item : Parser α} (hitem : ∀ c, Taking Local c item)
    (c : Cursor) : Local c (all stop item) := by
  have hforward (c : Cursor) : Taking Forward c item :=
    ⟨(hitem c).law.forward, (hitem c).takes, (hitem c).fresh⟩
  obtain ⟨hturns, hend⟩ := turns_allWithin stop hforward c.rest.length c (Nat.le_refl _)
  refine ⟨law_inside.all stop hforward c, ?_⟩
  intro xs ys k d c' res hb h heq hrest hfaults
  cases heq
  obtain ⟨last', hlast', htwin⟩ := hturns.twin (fun c => (hitem c).law) hb h hrest hfaults
  have hend' := mt (goesOn_iff htwin hb hfaults stop).mp hend
  refine ⟨last', ?_, htwin⟩
  rw [Parser.all, hlast'.eq_allWithin hend' (Nat.le_refl _)]

theorem law_local : Law Local Local where
  toCore := core_local
  outer := core_local
  weaken hp := hp
  separator hc := .next (hc ▸ nofun)
  report e _ := .report e
  all stop _ hitem c := .all stop hitem c
  framed hc hbody hf := core_local.seq (core_local.next (Kind.ends_of_opens hc)) fun s c =>
    core_local.seq (hbody s c) fun a c => (hf s a c).law

end Parser
end CarvFront

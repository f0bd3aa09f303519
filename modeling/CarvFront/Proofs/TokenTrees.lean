import CarvFront.Token.Lexer

/-! Tokens as trees: a text with holes holds the tokens of its holes. -/
namespace CarvFront

/-- Kinds of tokens that stand alone: neither a piece of a text with holes nor the end. -/
def Kind.isPlain : Kind → Bool
  | .stringStart _ | .stringPart _ | .stringEnd _ | .holeStart | .holeEnd | .eof => false
  | _ => true

mutual

/-- A token that stands alone, or a text with holes. -/
inductive TokenTree where
  | plain (k : Kind) (h : k.isPlain = true)
  | text (start : String) (holes : Holes)

/-- Trees one after the other. -/
inductive Forest where
  | nil
  | cons (t : TokenTree) (f : Forest)

/-- The holes of a text, each with what stands in it and the text behind it. -/
inductive Holes where
  | last (hole : Forest) (stop : String)
  | more (hole : Forest) (part : String) (rest : Holes)

end

/-! ### Kinds -/

mutual

def TokenTree.kinds : TokenTree → List Kind
  | .plain k _ => [k]
  | .text start holes => .stringStart start :: holes.kinds

def Forest.kinds : Forest → List Kind
  | .nil => []
  | .cons t f => t.kinds ++ f.kinds

def Holes.kinds : Holes → List Kind
  | .last hole stop => .holeStart :: hole.kinds ++ [.holeEnd, .stringEnd stop]
  | .more hole part rest => .holeStart :: hole.kinds ++ .holeEnd :: .stringPart part :: rest.kinds

end

/-! ### Braces -/

/-- How many braces are open behind a token, if `n` are in front of it. None is closed that was not
opened. -/
def Kind.braces (n : Nat) : Kind → Option Nat
  | .sym .lbrace => some (n + 1)
  | .sym .rbrace => if n = 0 then none else some (n - 1)
  | _ => some n

/-- How many braces are open behind some tokens, if `n` are in front of them. -/
def openBraces (n : Nat) (ks : List Kind) : Option Nat :=
  ks.foldlM Kind.braces n

/-- Braces are closed in the order they are opened, and none is left open. -/
def bracesMatch (ks : List Kind) : Bool :=
  openBraces 0 ks = some 0

mutual

/-- In every hole the braces match. -/
def TokenTree.balanced : TokenTree → Bool
  | .plain _ _ => true
  | .text _ holes => holes.balanced

def Forest.balanced : Forest → Bool
  | .nil => true
  | .cons t f => t.balanced && f.balanced

def Holes.balanced : Holes → Bool
  | .last hole _ => bracesMatch hole.kinds && hole.balanced
  | .more hole _ rest => bracesMatch hole.kinds && hole.balanced && rest.balanced

end

theorem openBraces_nil (n : Nat) : openBraces n [] = some n := rfl

theorem openBraces_cons (n : Nat) (k : Kind) (ks : List Kind) :
    openBraces n (k :: ks) = (k.braces n).bind (openBraces · ks) :=
  List.foldlM_cons

theorem openBraces_append (n : Nat) (as bs : List Kind) :
    openBraces n (as ++ bs) = (openBraces n as).bind (openBraces · bs) :=
  List.foldlM_append

/-- Braces around some tokens do not change how those inside match. -/
theorem openBraces_add {n m : Nat} {ks : List Kind} (h : openBraces n ks = some m) (more : Nat) :
    openBraces (n + more) ks = some (m + more) := by
  induction ks generalizing n with
  | nil =>
    rw [openBraces_nil, Option.some.injEq] at h
    rw [h, openBraces_nil]
  | cons k ks ih =>
    rw [openBraces_cons, Option.bind_eq_some_iff] at h
    obtain ⟨mid, hk, hks⟩ := h
    have hmore : k.braces (n + more) = some (mid + more) := by
      unfold Kind.braces at hk ⊢
      split at hk
      · grind
      · grind
      · grind
    rw [openBraces_cons, hmore]
    exact ih hks

theorem openBraces_of_match {ks : List Kind} (h : bracesMatch ks = true) (n : Nat)
    (rest : List Kind) : openBraces n (ks ++ rest) = openBraces n rest := by
  have hn := openBraces_add (of_decide_eq_true h) n
  rw [Nat.zero_add] at hn
  rw [openBraces_append, hn]
  rfl

/-- A text whose holes are balanced leaves the braces around it as they are. -/
theorem Holes.openBraces_kinds {hs : Holes} (h : hs.balanced = true) (n : Nat) (rest : List Kind) :
    openBraces n (hs.kinds ++ rest) = openBraces n rest := by
  match hs with
  | .last hole stop =>
    rw [Holes.balanced, Bool.and_eq_true] at h
    have hend : openBraces n (.holeEnd :: .stringEnd stop :: rest) = openBraces n rest := rfl
    simp only [Holes.kinds, List.cons_append, List.append_assoc, openBraces_cons]
    exact (openBraces_of_match h.1 n _).trans hend
  | .more hole part others =>
    rw [Holes.balanced, Bool.and_eq_true, Bool.and_eq_true] at h
    have hothers : openBraces n (.holeEnd :: .stringPart part :: (others.kinds ++ rest)) =
        openBraces n rest := others.openBraces_kinds h.2 n rest
    simp only [Holes.kinds, List.cons_append, List.append_assoc, openBraces_cons]
    exact (openBraces_of_match h.1.1 n _).trans hothers

theorem TokenTree.openBraces_text (start : String) {hs : Holes} (h : hs.balanced = true) (n : Nat)
    (rest : List Kind) :
    openBraces n ((TokenTree.text start hs).kinds ++ rest) = openBraces n rest :=
  Holes.openBraces_kinds h n rest

/-! ### Surroundings -/

/-- Trees that lead a scanner from one place to another in the same hole, or outside all strings. -/
inductive Mode.Carries : List Mode → List Kind → List Mode → Prop
  | top (ks : List Kind) : Carries [] ks []
  | hole {n m : Nat} {ks : List Kind} (h : openBraces n ks = some m) (outer : List Mode) :
      Carries (.hole n :: outer) ks (.hole m :: outer)

namespace Mode.Carries
variable {ms ms' : List Mode}

theorem left_ne_text {ks : List Kind} (h : Carries ms ks ms') : ms.head? ≠ some .text := by
  cases h <;> simp

theorem unique {ms₁ ms₂ : List Mode} {ks : List Kind} (h₁ : Carries ms ks ms₁)
    (h₂ : Carries ms ks ms₂) : ms₁ = ms₂ := by
  cases h₁ with
  | top =>
    cases h₂
    rfl
  | hole hn₁ =>
    cases h₂ with
    | hole hn₂ => rw [Option.some.inj (hn₁.symm.trans hn₂)]

theorem right_eq_of_nil (h : Carries ms [] ms') : ms' = ms := by
  cases h with
  | top => rfl
  | hole hn => rw [Option.some.inj hn]

theorem text {start : String} {hs : Holes} (hms : ms.head? ≠ some .text) (h : hs.balanced = true) :
    Carries ms (TokenTree.text start hs).kinds ms := by
  rcases ms with _ | ⟨_ | n, outer⟩
  · exact .top _
  · exact absurd rfl hms
  · refine .hole ?_ outer
    have hb := TokenTree.openBraces_text start h n []
    rwa [List.append_nil] at hb

theorem append_iff {as bs : List Kind} :
    Carries ms (as ++ bs) ms' ↔ ∃ mid, Carries ms as mid ∧ Carries mid bs ms' := by
  constructor
  · rintro (_ | ⟨h, outer⟩)
    · exact ⟨[], .top as, .top bs⟩
    · rw [openBraces_append, Option.bind_eq_some_iff] at h
      obtain ⟨mid, has, hbs⟩ := h
      exact ⟨_, .hole has outer, .hole hbs outer⟩
  · rintro ⟨_, ⟨_ | ⟨has, outer⟩, hbs⟩⟩
    · cases hbs
      exact .top _
    · cases hbs with
      | hole hbs =>
        refine .hole ?_ outer
        rw [openBraces_append, has]
        exact hbs

/-- A plain token is sent as it is, unless it closes the hole around it. -/
theorem surround_plain {k : Kind} (hk : k.isPlain = true) (hms : ms.head? ≠ some .text) :
    (Scanner.surround k ms).1 = k ∧ Carries ms [k] (Scanner.surround k ms).2 ∨
      ∃ outer, k = .sym .rbrace ∧ ms = .hole 0 :: outer ∧
        Scanner.surround k ms = (.holeEnd, .text :: outer) := by
  rcases ms with _ | ⟨_ | n, outer⟩
  · left
    have hs : Scanner.surround k [] = (k, []) := by
      unfold Scanner.surround
      split <;> simp_all [Kind.isPlain]
    rw [hs]
    exact ⟨rfl, .top _⟩
  · exact absurd rfl hms
  · unfold Scanner.surround
    split
    · cases hk
    · next h =>
      cases h
      exact .inl ⟨rfl, .hole rfl _⟩
    · next h =>
      cases h
      exact .inr ⟨_, rfl, rfl, rfl⟩
    · next h =>
      cases h
      exact .inl ⟨rfl, .hole rfl _⟩
    · next hl hr₀ hr =>
      refine .inl ⟨rfl, .hole ?_ outer⟩
      rw [openBraces_cons, Kind.braces]
      · rfl
      · exact fun h => hl n outer h rfl
      · intro h
        cases n with
        | zero => exact hr₀ outer h rfl
        | succ n => exact hr n outer h rfl

end Mode.Carries

end CarvFront

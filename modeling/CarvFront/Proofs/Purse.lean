import Mathlib.Algebra.Order.Monoid.Defs
import CarvFront.Proofs.Combinators

/-! What parsers give is paid for with the tokens that they pass. -/
namespace CarvFront.Parser

/-- What the tokens behind a place are worth, where it fits. Reading on leads to places that fit, where
the tokens are worth no more. -/
structure Purse (M : Type) [AddCommMonoid M] [PartialOrder M] where
  Fits : Cursor → Prop
  Leads : Cursor → Cursor → Prop
  worth : Cursor → M
  course : Course Leads
  fits {c c' : Cursor} (h : Fits c) (hc : Leads c c') : Fits c'
  worth_le {c c' : Cursor} (hc : Leads c c') : worth c' ≤ worth c

namespace Purse
variable {M : Type} [AddCommMonoid M] [PartialOrder M] {α β : Type}

/-- What a parser gives has `Q`, for what was paid for it. -/
def Spends (l : Purse M) (p : Parser α) (Q : M → α → Prop) : Prop :=
  ∀ c : Cursor, l.Fits c → ∀ a c', p c = (some a, c') →
    l.Leads c c' ∧ ∃ s, s + l.worth c' ≤ l.worth c ∧ Q s a

/-- The value of a parser does not matter to what is paid behind it. -/
abbrev Skips (l : Purse M) (p : Parser α) : Prop :=
  ∀ {β : Type} {f : α → Parser β} {R : M → β → Prop}, (∀ a, l.Spends (f a) R) → l.Spends (p >>= f) R

namespace Spends
variable {l : Purse M} {p : Parser α} {f : α → Parser β} {Q Q' : M → α → Prop} {R : M → β → Prop}

theorem pure {a : α} (h : Q 0 a) : l.Spends (Pure.pure a) Q := by
  rintro c - _ _ heq
  cases heq
  exact ⟨l.course.refl c, 0, (zero_add _).le, h⟩

theorem fail (e : SyntaxError) : l.Spends (fail e) Q := by
  rintro c - _ _ heq
  cases heq

theorem imp (h : l.Spends p Q) (himp : ∀ s a, Q s a → Q' s a) : l.Spends p Q' := by
  intro c hc a c' heq
  obtain ⟨hleads, s, hs, hq⟩ := h c hc a c' heq
  exact ⟨hleads, s, hs, himp s a hq⟩

variable [AddLeftMono M]

/-- One parser after the other. What the first paid is added to what the second pays. -/
theorem seq (hp : l.Spends p Q) (hf : ∀ a s, Q s a → l.Spends (f a) fun s' b => R (s + s') b) :
    l.Spends (p >>= f) R := by
  intro c hc b c'' heq
  rcases hres : p c with ⟨_ | a, c'⟩
  · rw [bind_of_none hres] at heq
    cases heq
  · rw [bind_of_some hres] at heq
    obtain ⟨hleads, s, hs, hq⟩ := hp c hc a c' hres
    obtain ⟨hleads', s', hs', hr⟩ := hf a s hq c' (l.fits hc hleads) b c'' heq
    refine ⟨l.course.trans hleads hleads', s + s', ?_, hr⟩
    rw [add_assoc]
    exact (add_le_add_right hs' s).trans hs

/-- A parser whose value costs nothing. -/
theorem step {g : α → Prop} (hp : ∀ c, l.Leads c (p c).2)
    (hg : ∀ c, l.Fits c → ∀ a ∈ (p c).1, g a) (hf : ∀ a, g a → l.Spends (f a) R) :
    l.Spends (p >>= f) R := by
  apply seq (Q := fun s a => s = 0 ∧ g a)
  · intro c hc a c' heq
    have hleads := hp c
    have ha := hg c hc a
    rw [heq] at hleads ha
    exact ⟨hleads, 0, by rw [zero_add]; exact l.worth_le hleads, rfl, ha rfl⟩
  · rintro a s ⟨rfl, ha⟩
    simpa only [zero_add] using hf a ha

theorem skip (hp : ∀ c, l.Leads c (p c).2) (hf : ∀ a, l.Spends (f a) R) : l.Spends (p >>= f) R :=
  step hp (g := fun _ => True) (fun _ _ _ _ => trivial) fun a _ => hf a

/-! ### Single steps -/

section
variable {k : Kind} {n : Nat}

theorem next : l.Skips Parser.next := skip l.course.steps.next

theorem peek : l.Skips Parser.peek := skip l.course.steps.peek

theorem lookAhead : l.Skips (Parser.lookAhead n) := skip (l.course.steps.lookAhead n)

theorem isAt : l.Skips (Parser.isAt k) := skip (l.course.steps.isAt k)

theorem here : l.Skips Parser.here := skip l.course.steps.here

theorem before : l.Skips Parser.before := skip l.course.steps.before

theorem remaining : l.Skips Parser.remaining := skip l.course.steps.remaining

theorem eat : l.Skips (Parser.eat k) := skip (l.course.steps.eat k)

theorem sym {s : Symbol} : l.Skips (Parser.sym s) := skip (l.course.steps.sym s)

theorem word {w : Keyword} : l.Skips (Parser.word w) := skip (l.course.steps.word w)

theorem semicolon : l.Skips Parser.semicolon := skip l.course.steps.semicolon

theorem ident : l.Skips Parser.ident := skip l.course.steps.ident

end

/-! ### Lists -/

variable {item : Parser α} {Qs : M → List α → Prop} (hitem : l.Spends item Q) (hnil : Qs 0 [])
  (hcons : ∀ s a s' as, Q s a → Qs s' as → Qs (s + s') (a :: as))
include hitem hnil hcons

theorem itemsWithin (close : Kind) (m : Nat) : l.Spends (itemsWithin close item m) Qs := by
  induction m with
  | zero => exact .pure hnil
  | succ m ih =>
    refine .peek fun got => ?_
    split
    · exact .pure hnil
    refine .seq hitem fun a s ha => .eat fun comma => ?_
    split
    · exact .seq ih fun as s' has => .pure ((add_zero s').symm ▸ hcons s a s' as ha has)
    · exact .pure (hcons s a 0 [] ha hnil)

theorem items (close : Symbol) : l.Spends (items close item) Qs := by
  refine .remaining fun m => ?_
  refine .seq (itemsWithin hitem hnil hcons _ m) fun as s has => ?_
  exact .sym fun _ => .pure ((add_zero s).symm ▸ has)

theorem allWithin (stop : Kind → Bool) (hleads : ∀ c, l.Leads c (item c).2) (m : Nat) {c : Cursor}
    (hc : l.Fits c) :
    ∃ s, s + l.worth (allWithin stop item m c).2 ≤ l.worth c ∧ Qs s (allWithin stop item m c).1 := by
  induction m generalizing c with
  | zero => exact ⟨0, (zero_add _).le, hnil⟩
  | succ m ih =>
    rw [Parser.allWithin]
    split
    · exact ⟨0, (zero_add _).le, hnil⟩
    have hon := hleads c
    rcases hres : item c with ⟨_ | a, c'⟩ <;> rw [hres] at hon
    · -- what fails is left out
      have hrecover := l.course.trans hon (l.course.recover c')
      obtain ⟨s, hs, has⟩ := ih (l.fits hc hrecover)
      exact ⟨s, hs.trans (l.worth_le hrecover), has⟩
    · obtain ⟨-, s, hs, ha⟩ := hitem c hc a c' hres
      obtain ⟨s', hs', has⟩ := ih (l.fits hc hon)
      refine ⟨s + s', ?_, hcons s a s' _ ha has⟩
      rw [add_assoc]
      exact (add_le_add_right hs' s).trans hs

theorem all (stop : Kind → Bool) (hleads : ∀ c, l.Leads c (item c).2) :
    l.Spends (all stop item) Qs := by
  intro c hc as c' heq
  have hon := l.course.allWithin stop hleads c.rest.length c
  have hall := allWithin hitem hnil hcons stop hleads c.rest.length hc
  cases heq
  exact ⟨hon, hall⟩

end Spends
end Purse
end CarvFront.Parser

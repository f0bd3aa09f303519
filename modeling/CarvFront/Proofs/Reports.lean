import CarvFront.Proofs.CleanCode
import CarvFront.Proofs.Scripts
import CarvFront.Proofs.TruncatedLogs
import Mathlib.Data.List.Infix

/-! Nothing fails in silence: what is not read is reported, and the log counts at least as many
errors as there are items left out. So a program without errors is all of its text. -/
namespace CarvFront

/-! ### Counting errors -/

namespace Log

theorem totalErrors_ofFaults (source : Source) (fs : List Fault) :
    (ofFaults source fs).totalErrors = fs.length :=
  (tells_ofFaults source fs).totalErrors.trans (List.length_map _)

/-- Errors that are stored stay, in the same order. -/
theorem errors_prefix_ofFaults (source : Source) {fs gs : List Fault} (h : fs <+: gs) :
    (ofFaults source fs).errors <+: (ofFaults source gs).errors := by
  rw [(tells_ofFaults source fs).errors, (tells_ofFaults source gs).errors]
  exact List.IsPrefix.take (h.map _) _

end Log

/-! ### Parsers that say why they fail -/

namespace Parser
variable {α : Type}

/-- A parser says why it fails, and for each item that it leaves out. -/
structure Outspoken (source : Source) (p : Parser α) : Prop where
  failure {c : Cursor} (h : (p c).1 = none) :
    (Log.ofFaults source c.faults).totalErrors < (Log.ofFaults source (p c).2.faults).totalErrors
  /-- Errors that are stored already stay as they are. -/
  kept (c : Cursor) :
    (Log.ofFaults source c.faults).errors <+: (Log.ofFaults source (p c).2.faults).errors
  scripted : Scripted p
  drops {s : Script α} (hs : s.Writes p) (c : Cursor) :
    s.drops c + (Log.ofFaults source c.faults).totalErrors ≤
      (Log.ofFaults source (p c).2.faults).totalErrors

end Parser

namespace Grammar
open CarvFront.Parser

theorem Production.outspoken {n : Nat} {α : Type} {p : Parser α} (hp : Production (.levels n) p)
    (source : Source) : Outspoken source p where
  failure {c} h := by
    obtain ⟨s, hs⟩ := hp.scripted
    rw [Log.totalErrors_ofFaults, Log.totalErrors_ofFaults]
    rw [← hs 0 c] at h ⊢
    exact Nat.lt_of_le_of_lt (Nat.le_add_left _ _) ((s.accounted_trace 0 c).none h)
  kept c := Log.errors_prefix_ofFaults source (hp.holds keepsFaults_steps keepsFaults_fail c)
  scripted := hp.scripted
  drops := by
    intro s hs c
    rw [Log.totalErrors_ofFaults, Log.totalErrors_ofFaults, ← hs 0 c]
    exact (s.accounted_trace 0 c).drops

end Grammar

/-! ### Programs without errors -/

section
variable {source : Source}

theorem Source.check_of_errors (h : (Program.ofSource source).2.hasErrors = true) :
    source.check = .error ⟨source.name, (Program.ofSource source).2⟩ := by
  rw [Source.check]
  generalize Program.ofSource source = found at h
  exact if_pos h

theorem Source.check_of_clean (h : (Program.ofSource source).2.hasErrors = false) :
    source.check = .ok ((Program.ofSource source).1.check { fileName := source.name }) := by
  rw [Source.check]
  generalize Program.ofSource source = found at h
  exact if_neg (Bool.eq_false_iff.mp h)

end

open CarvFront.Parser CarvFront.Grammar

namespace Program

/-- A program is what all of a text was read into: there is no fault, nothing was left out, and the
last statement was read up to the end. -/
structure ReadWhole (source : Source) (p : Program) : Prop where
  lexical : (Token.scan source.text).2 = []
  grammatical : (ofTokens (Token.scan source.text).1).2 = []
  drops {s : Script Program} (hs : s.Writes program) :
    s.drops (.start (Token.scan source.text).1) = 0
  turns : ∃ last, Turns (fun _ => false) (statement rules) (.start (Token.scan source.text).1)
    p.stmts last ∧ last.kind = .eof

theorem faults_of_hasErrors {source : Source} (h : (ofSource source).2.hasErrors = false) :
    (Token.scan source.text).2 = [] ∧ (ofTokens (Token.scan source.text).1).2 = [] := by
  have hnone := mt (tells_ofSource source).hasErrors.mpr (Bool.eq_false_iff.mp h)
  obtain ⟨hlexical, hgrammatical⟩ := List.append_eq_nil_iff.mp (Decidable.not_not.mp hnone)
  exact ⟨List.map_eq_nil_iff.mp hlexical, List.map_eq_nil_iff.mp hgrammatical⟩

/-- Reading stops before the end only where there are faults. -/
theorem kind_eq_eof {last : Cursor} (hend : ¬GoesOn (fun _ => false) last)
    (hfaults : last.faults = []) : last.kind = .eof := by
  rcases Decidable.not_not.mp hend with h | h | h
  · cases h
  · exact h
  · rw [Cursor.full, hfaults] at h
    cases h

theorem readWhole_of_hasErrors {source : Source} (h : (ofSource source).2.hasErrors = false) :
    ReadWhole source (ofSource source).1 := by
  obtain ⟨hlexical, hgrammatical⟩ := faults_of_hasErrors h
  refine ⟨hlexical, hgrammatical, ?_, ?_⟩
  · intro s hs
    have hdrops := (s.accounted_trace 0 (.start (Token.scan source.text).1)).drops
    rw [hs] at hdrops
    change _ ≤ (ofTokens (Token.scan source.text).1).2.length at hdrops
    rw [hgrammatical] at hdrops
    exact Nat.eq_zero_of_add_eq_zero_right (Nat.le_zero.mp hdrops)
  · obtain ⟨last, hturns, hend, hlast⟩ := turns_ofTokens (Token.scan source.text).1
    exact ⟨last, hturns, kind_eq_eof hend (hlast.symm.trans hgrammatical)⟩

/-- Every parser of the grammar that fails has reported an error more, and none takes back what is
stored; a whole program has as many errors at least as items that are left out of it. Where a text
has no errors the program is all of it, and only such a program is checked. -/
theorem failures_reported (source : Source) :
    (∀ {n : Nat} {α : Type} {p : Parser α}, Production (.levels n) p → Outspoken source p) ∧
    (∀ {s : Script Program} (ts : List Token), s.Writes program →
      s.drops (.start ts) ≤ (Log.ofFaults source (ofTokens ts).2).totalErrors) ∧
    ((ofSource source).2.hasErrors = false → ReadWhole source (ofSource source).1) ∧
    ∀ report, source.check = .ok report → ReadWhole source (ofSource source).1 ∧
      report = (ofSource source).1.check { fileName := source.name } := by
  refine ⟨fun hp => hp.outspoken source, ?_, readWhole_of_hasErrors, ?_⟩
  · intro s ts hs
    have houtspoken := (Production.program : Production (.levels 0) program).outspoken source
    exact Nat.le_trans (Nat.le_add_right _ _) (houtspoken.drops hs (.start ts))
  · intro report h
    cases herrors : (ofSource source).2.hasErrors with
    | true =>
      rw [Source.check_of_errors herrors] at h
      cases h
    | false =>
      rw [Source.check_of_clean herrors] at h
      exact ⟨readWhole_of_hasErrors herrors, (Except.ok.inj h).symm⟩

/-- Of `let let x = 1;` a statement is left out, and of `let x = 1;` nothing is. -/
theorem failures_reported_binding :
    let source : Source := ⟨"main", "let x = 1;"⟩
    let ts := (Token.scan "let let x = 1;").1
    (statement rules (.start ts)).1.isNone = true ∧ Outspoken source (statement rules) ∧
    (∃ s : Script Program, s.Writes program ∧
      s.drops (.start ts) ≤ (Log.ofFaults source (ofTokens ts).2).totalErrors) ∧
    (ofSource source).1.stmts.length = 1 ∧ (ofSource source).2.hasErrors = false ∧
    ReadWhole source (ofSource source).1 ∧ ∃ report, source.check = .ok report ∧
      report = (ofSource source).1.check { fileName := source.name } := by
  intro source ts
  have hfails : (statement rules (.start ts)).1.isNone = true := by decide +kernel
  have hcount : (ofSource source).1.stmts.length = 1 := by decide +kernel
  have hclean : (ofSource source).2.hasErrors = false := by decide +kernel
  obtain ⟨hproductions, hdrops, hwhole, hcheck⟩ := failures_reported source
  have hscripted : Scripted program := (hproductions (.program : Production (.levels 0) _)).scripted
  obtain ⟨s, hs⟩ := hscripted
  have hok := Source.check_of_clean hclean
  refine ⟨hfails, hproductions (.statement : Production (.levels (maxNesting + 1)) _), ⟨s, hs, ?_⟩,
    hcount, hclean, hwhole hclean, _, hok, (hcheck _ hok).2⟩
  exact hdrops ts hs

end Program
end CarvFront

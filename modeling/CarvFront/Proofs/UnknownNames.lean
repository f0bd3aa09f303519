import CarvFront.Proofs.MarkedTrees
import CarvFront.Proofs.ReadingAhead

/-! Every name that no type has is reported once. All names in annotations are looked up once, and
no two of them stand at one place, so no two of these errors do. -/
namespace CarvFront

/-! ### Annotations of a program -/

/-- A name stands in an annotation, maybe inside another one. -/
inductive TypeExpr.Mentions (n : Ident) : TypeExpr → Prop
  | named : Mentions n (.named n.span n.name)
  | array {e : TypeExpr} (span : Span) (h : Mentions n e) : Mentions n (.array span e)
  | key {k : TypeExpr} (span : Span) (v : TypeExpr) (h : Mentions n k) : Mentions n (.map span k v)
  | value {v : TypeExpr} (span : Span) (k : TypeExpr) (h : Mentions n v) :
    Mentions n (.map span k v)
  | param {ps : List TypeExpr} {t : TypeExpr} (span : Span) (r : TypeExpr) (ht : t ∈ ps)
    (h : Mentions n t) : Mentions n (.fn span ps r)
  | result {r : TypeExpr} (span : Span) (ps : List TypeExpr) (h : Mentions n r) :
    Mentions n (.fn span ps r)
  | chan {e : TypeExpr} (span : Span) (h : Mentions n e) : Mentions n (.chan span e)
  | future {e : TypeExpr} (span : Span) (h : Mentions n e) : Mentions n (.future span e)
  | optional {e : TypeExpr} (span : Span) (h : Mentions n e) : Mentions n (.optional span e)
  | ref {e : TypeExpr} (span : Span) (mutable : Bool) (h : Mentions n e) :
    Mentions n (.ref span mutable e)

namespace TypeExpr
variable {n : Ident}

mutual

theorem mentions_of_mem_names : ∀ {t : TypeExpr}, n ∈ t.names → t.Mentions n
  | .basic _ _, h => by
    rw [names] at h
    cases h
  | .array span e, h => .array span (mentions_of_mem_names h)
  | .map span k v, h => by
    rw [names, List.mem_append] at h
    exact h.elim (fun h => .key span v (mentions_of_mem_names h))
      fun h => .value span k (mentions_of_mem_names h)
  | .fn span ps r, h => by
    rw [names, List.mem_append] at h
    obtain h | h := h
    · obtain ⟨t, ht, h⟩ := mentions_of_mem_namesAll h
      exact .param span r ht h
    · exact .result span ps (mentions_of_mem_names h)
  | .chan span e, h => .chan span (mentions_of_mem_names h)
  | .future span e, h => .future span (mentions_of_mem_names h)
  | .optional span e, h => .optional span (mentions_of_mem_names h)
  | .ref span mutable e, h => .ref span mutable (mentions_of_mem_names h)
  | .named span name, h => by
    rw [names, List.mem_singleton] at h
    rw [h]
    exact .named

theorem mentions_of_mem_namesAll : ∀ {ts : List TypeExpr}, n ∈ namesAll ts →
    ∃ t ∈ ts, t.Mentions n
  | [], h => by
    rw [namesAll] at h
    cases h
  | t :: ts, h => by
    rw [namesAll, List.mem_append] at h
    obtain h | h := h
    · exact ⟨t, List.mem_cons_self, mentions_of_mem_names h⟩
    · obtain ⟨t', ht', h⟩ := mentions_of_mem_namesAll h
      exact ⟨t', List.mem_cons_of_mem t ht', h⟩

end

theorem Mentions.mem_names {t : TypeExpr} (h : t.Mentions n) : n ∈ t.names := by
  induction h with
  | named => exact List.mem_singleton_self n
  | array _ _ ih | chan _ _ ih | future _ _ ih | optional _ _ ih | ref _ _ _ ih => exact ih
  | key _ _ _ ih => exact List.mem_append_left _ ih
  | value _ _ _ ih => exact List.mem_append_right _ ih
  | param _ _ ht _ ih =>
    rw [names, List.mem_append, namesAll_eq_flatMap]
    exact .inl (List.mem_flatMap.mpr ⟨_, ht, ih⟩)
  | result _ _ _ ih => exact List.mem_append_right _ ih

theorem mem_names_iff {t : TypeExpr} : n ∈ t.names ↔ t.Mentions n :=
  ⟨mentions_of_mem_names, Mentions.mem_names⟩

end TypeExpr

/-- The annotations of a signature. -/
def Signature.annotations (sig : Signature) : List TypeExpr :=
  sig.params.filterMap (·.type) ++ sig.ret.toList

/-- The annotations of a node, without those of the code inside it. -/
def Node.annotations : Node → List TypeExpr
  | .expr (.lambda _ sig _) | .stmt (.fn _ _ sig _) => sig.annotations
  | .stmt (.bind _ _ _ type _) => type.toList
  | .stmt (.classDecl _ _ fields ms) => fields.map (·.type) ++ ms.flatMap (·.sig.annotations)
  | .stmt (.interfaceDecl _ _ heads) => heads.flatMap (·.sig.annotations)
  | .stmt (.implDecl _ _ _ ms) => ms.flatMap (·.sig.annotations)
  | _ => []

theorem names_getD (type : Option TypeExpr) :
    (type.map (·.names)).getD [] = type.toList.flatMap (·.names) := by
  cases type <;> simp

theorem Signature.names_eq (sig : Signature) : sig.names = sig.annotations.flatMap (·.names) := by
  simp only [names, annotations, names_getD, List.flatMap_append, List.filterMap_eq_flatMap_toList,
    List.flatMap_assoc]

theorem Node.mentions_eq (node : Node) : node.mentions = node.annotations.flatMap (·.names) := by
  cases node with
  | expr e =>
    cases e with
    | lambda span sig b => exact sig.names_eq
    | _ => rfl
  | stmt st =>
    cases st with
    | fn span name sig b => exact sig.names_eq
    | bind span mutable name type e => exact names_getD type
    | classDecl | interfaceDecl | implDecl =>
      simp [annotations, Signature.names_eq, List.flatMap_assoc, List.flatMap_map]
    | _ => rfl

namespace Program

/-- A name stands in an annotation of a program. -/
def Mentions (p : Program) (n : Ident) : Prop :=
  ∃ o ∈ p.occurrences, ∃ t ∈ o.node.annotations, t.Mentions n

theorem mentions_iff {p : Program} {n : Ident} : p.Mentions n ↔ n ∈ mentions p.occurrences := by
  simp only [Mentions, mentions, List.mem_flatMap, Node.mentions_eq, TypeExpr.mem_names_iff]

instance (p : Program) (n : Ident) : Decidable (p.Mentions n) :=
  decidable_of_iff _ mentions_iff.symm

/-- Checking a program tells every name that it does not declare, and none more often than it is
there. -/
theorem told_finalState (p : Program) (hspans : (signedSpans p.occurrences).Nodup) :
    Told (declares p.occurrences) ↑(mentions p.occurrences) (p.finalState Custody).unknown := by
  have hknows : (State.start : State Custody).KnowsOnly (declares p.occurrences) := by
    intro name hname
    cases hname
  have hdeclares : ∀ st ∈ p.stmts, (Node.stmt st).declares ⊆ declares p.occurrences :=
    fun st hst name hname => List.mem_flatMap.mpr ⟨_, Check.mem_placedStmts hst [], hname⟩
  obtain ⟨ht, hw⟩ := Check.tells_readAhead hknows hdeclares (n := p.typeNames) rfl
  have hwaiting : Check.Waiting (declares p.occurrences) (placedStmts [] p.stmts)
      (p.stmts.flatMap (Stmt.earlySpans p.typeNames)) p.hoisted := by
    have hwaits (span : Span) := (hw span).trans (or_iff_right Bool.false_ne_true)
    exact ⟨p.declaring_hoisted.atTop, ht.knows hknows, List.Subset.refl _, hspans,
      fun span _ => hwaits span⟩
  obtain ⟨late, ht', hlate⟩ := Check.tells_stmts p.typeNames hwaiting
  obtain ⟨told, htold, heq⟩ := (ht.trans ht').told
  rw [hlate] at htold
  have hnone : (State.start : State Custody).unknown = 0 := rfl
  rw [hnone, add_zero] at heq
  rw [finalState_eq, Check.piece, Check.body]
  exact heq ▸ htold

end Program

/-! ### Reports -/

/-- Where an issue is shown. -/
def Issue.start (i : Issue) : Position :=
  ⟨i.line, i.column⟩

/-- Whether an issue is about the name of a type. New objects of no class have the same code. -/
def Issue.isUnknownType (i : Issue) : Bool :=
  i.code = .unknownType && "unknown type '".toList.isPrefixOf i.message.toList

/-- The errors about names of types. -/
def Report.unknownTypeErrors (r : Report) : List Issue :=
  r.errors.filter Issue.isUnknownType

theorem starts_unknownType (name : String) :
    "unknown type '".toList.isPrefixOf (Cause.unknownType name).message.toList = true := by
  change "unknown type '".toList.isPrefixOf ("unknown type '" ++ name ++ "'").toList = true
  simp

theorem starts_unknownClass (name : String) :
    "unknown type '".toList.isPrefixOf (Cause.unknownClass name).message.toList = false := by
  change "unknown type '".toList.isPrefixOf ("unknown class '" ++ name ++ "'").toList = false
  simp [List.isPrefixOf_cons_cons]

theorem Issue.isUnknownType_ofFinding (f : Finding) :
    (Issue.ofFinding f).isUnknownType = f.unknown?.isSome := by
  obtain ⟨cause, span⟩ := f
  cases cause with
  | unknownType name => exact starts_unknownType name
  | unknownClass name => exact starts_unknownClass name
  | _ => rfl

/-- What is said about the name of no type. -/
def Ident.unknownIssue (n : Ident) : Issue :=
  .ofFinding ⟨.unknownType n.name, n.span⟩

theorem Finding.eq_of_unknown? {f : Finding} {n : Ident} (h : f.unknown? = some n) :
    f = ⟨.unknownType n.name, n.span⟩ := by
  obtain ⟨cause, span⟩ := f
  cases cause with
  | unknownType name =>
    cases h
    rfl
  | _ => cases h

theorem filter_isUnknownType (fs : List Finding) :
    ((fs.filter fun f => f.cause.severity = .error).map Issue.ofFinding).filter
      Issue.isUnknownType = (fs.filterMap Finding.unknown?).map Ident.unknownIssue := by
  induction fs with
  | nil => rfl
  | cons f fs ih =>
    have hissue := Issue.isUnknownType_ofFinding f
    cases hf : f.unknown? with
    | none =>
      rw [hf] at hissue
      rw [List.filterMap_cons_none hf, ← ih, List.filter_cons]
      split
      · rw [List.map_cons, List.filter_cons_of_neg (by simp [hissue])]
      · rfl
    | some n =>
      obtain rfl := Finding.eq_of_unknown? hf
      have hsevere : decide ((Cause.unknownType n.name).severity = .error) = true := rfl
      rw [List.filterMap_cons_some hf, List.map_cons, ← ih, List.filter_cons, if_pos hsevere,
        List.map_cons, List.filter_cons_of_pos hissue]
      rfl

/-- Of names that stand at different places, those at the place of one are that one. -/
theorem filter_start_eq {names : List Ident} (h : (names.map (·.span.start)).Nodup) {n : Ident}
    (hn : n ∈ names) : names.filter (·.span.start = n.span.start) = [n] := by
  refine List.perm_singleton.mp ((List.perm_ext_iff_of_nodup (h.of_map.filter _)
    (List.nodup_singleton n)).mpr fun m => ?_)
  rw [List.mem_filter, List.mem_singleton, decide_eq_true_iff]
  constructor
  · rintro ⟨hm, hstart⟩
    exact List.inj_on_of_nodup_map h hm hn hstart
  · rintro rfl
    exact ⟨hn, rfl⟩

namespace Program

/-- The errors about names of types are those about the names that were told. -/
theorem unknownTypeErrors_check (p : Program) (o : Options) :
    ∃ names : List Ident, ↑names = (p.finalState Custody).unknown ∧
      (p.check o).unknownTypeErrors = names.map Ident.unknownIssue := by
  refine ⟨_, ?_, filter_isUnknownType _⟩
  rw [List.filterMap_reverse, Multiset.coe_reverse]
  rfl

/-- Every name that no type of a program has is told once, where it stands, and nothing else is told
of names of types. This holds of every text, whether it can be read without errors or not. -/
theorem unknown_names_reported (source : Source) (o : Options) :
    let p := (ofSource source).1
    ((p.check o).unknownTypeErrors.map Issue.start).Nodup ∧
      (∀ n, p.Mentions n → n.name ∉ declares p.occurrences →
        (p.check o).unknownTypeErrors.filter (·.start = n.span.start) = [n.unknownIssue]) ∧
      ∀ i ∈ (p.check o).unknownTypeErrors, ∃ n, p.Mentions n ∧ i = n.unknownIssue := by
  intro p
  have hmarks := Multiset.nodup_add.mp (nodup_marks source)
  have hspans : (signedSpans p.occurrences).Nodup := .of_map _ (Multiset.coe_nodup.mp hmarks.2.1)
  obtain ⟨names, hnames, hreported⟩ := p.unknownTypeErrors_check o
  have htold := p.told_finalState hspans
  rw [← hnames] at htold
  have hstarts : (names.map (·.span.start)).Nodup := by
    have hle := Multiset.map_le_map (f := fun n : Ident => n.span.start) htold.only
    exact Multiset.coe_nodup.mp (Multiset.nodup_of_le hle hmarks.1)
  refine ⟨?_, fun n hn hname => ?_, fun i hi => ?_⟩
  · rw [hreported, List.map_map]
    exact hstarts
  · have hmem : n ∈ names := by
      refine Multiset.mem_coe.mp (Multiset.mem_of_le htold.all ?_)
      exact Multiset.mem_filter.mpr ⟨mentions_iff.mp hn, hname⟩
    have hfilter := filter_start_eq hstarts hmem
    rw [hreported, List.filter_map]
    exact congrArg (List.map Ident.unknownIssue) hfilter
  · rw [hreported] at hi
    obtain ⟨n, hn, rfl⟩ := List.mem_map.mp hi
    have hmem := Multiset.mem_coe.mp (Multiset.mem_of_le htold.only (Multiset.mem_coe.mpr hn))
    exact ⟨n, mentions_iff.mpr hmem, rfl⟩

/-- Annotations of a method for a class that is not there, and of a lambda in a text. -/
def gapsSource : Source where
  name := "main.carv"
  text := "impl Round for Gone \x7b fn turn(&self) -> [Gap] \x7b \"$\x7bfn(x: Gap) \x7b\x7d\x7d\"; \x7d \x7d"

theorem unknown_names_gapsSource :
    ∃ n : Ident, n.span.start = ⟨1, 58⟩ ∧ (ofSource gapsSource).1.Mentions n ∧
      n.name ∉ declares (ofSource gapsSource).1.occurrences ∧
      ((ofSource gapsSource).1.check {}).unknownTypeErrors.filter (·.start = n.span.start) =
        [n.unknownIssue] := by
  let n : Ident := ⟨"Gap", ⟨⟨1, 58⟩, ⟨1, 60⟩⟩⟩
  have hn : (ofSource gapsSource).1.Mentions n ∧
      n.name ∉ declares (ofSource gapsSource).1.occurrences := by
    decide +kernel
  exact ⟨n, rfl, hn.1, hn.2, (unknown_names_reported gapsSource {}).2.1 n hn.1 hn.2⟩

end Program
end CarvFront

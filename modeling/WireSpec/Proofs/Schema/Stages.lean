import WireSpec.Proofs.Names.Problems
import WireSpec.Proofs.Schema.Placeholders
import WireSpec.Proofs.Token.Tiling
/-!
# Clean at every stage

A decoder comes of a text exactly if the scan, the reading and the analysis have nothing to report.
Otherwise the first of them that has something to report ends the compilation, but for the scan and
the reading, which report together; the report names every one of the problems.
-/

namespace WireSpec

namespace Diagnostic

theorem report_cons (d : Diagnostic) {ds : List Diagnostic} (h : ds ≠ []) :
    report (d :: ds) = d.text ++ "; " ++ report ds := by
  have htexts : ds.map text ≠ [] := fun hnil => h (List.map_eq_nil_iff.mp hnil)
  exact String.intercalate_cons_of_ne_nil htexts

/-- The report has the text of every diagnostic in it. -/
theorem exists_report_eq {d : Diagnostic} {ds : List Diagnostic} (h : d ∈ ds) :
    ∃ before behind, report ds = before ++ d.text ++ behind := by
  induction ds with
  | nil => cases h
  | cons head tail ih =>
      by_cases htail : tail = []
      · subst htail
        obtain rfl := List.mem_singleton.mp h
        exact ⟨"", "", by simp [report]⟩
      · rw [report_cons head htail]
        rcases List.mem_cons.mp h with rfl | h
        · exact ⟨"", "; " ++ report tail, by simp [String.append_assoc]⟩
        · obtain ⟨before, behind, htexts⟩ := ih h
          exact ⟨head.text ++ "; " ++ before, behind, by simp [htexts, String.append_assoc]⟩

end Diagnostic

namespace Protocol

variable {p : Protocol} {o : Options}

theorem exists_compile_eq_ok (h : (p.analyze o).problems = []) : ∃ d, p.compile o = .ok d := by
  have hselect : (p.selectMessage o).problems = [] := by
    simp only [analyze, Checked.problems_bind, List.append_eq_nil_iff] at h
    exact h.2.2.1
  obtain ⟨m, hm⟩ := Option.isSome_iff_exists.mp (problems_selectMessage.mp hselect)
  have hvalue : ∃ plan, (p.analyze o).value = some (m, plan) := by
    simp only [analyze, Checked.value_bind, hm, Checked.value_pure]
    exact ⟨_, rfl⟩
  obtain ⟨plan, hvalue⟩ := hvalue
  simp only [compile, hvalue, h]
  exact ⟨_, rfl⟩

theorem compile_ok_iff : (∃ d, p.compile o = .ok d) ↔ (p.analyze o).problems = [] := by
  refine ⟨fun ⟨d, hd⟩ => ?_, exists_compile_eq_ok⟩
  by_contra h
  rw [compile_eq_error h] at hd
  cases hd

theorem problems_of_compile {ds : List Diagnostic} (h : p.compile o = .error ds) :
    (p.analyze o).problems ≠ [] ∧ ds = (p.analyze o).problems.map .ofSemantic := by
  have hproblems : (p.analyze o).problems ≠ [] := by
    intro hclean
    obtain ⟨d, hd⟩ := exists_compile_eq_ok hclean
    rw [hd] at h
    cases h
  exact ⟨hproblems, Except.error.inj (h.symm.trans (compile_eq_error hproblems))⟩

end Protocol

theorem Scan.ne_invalid_of_clean {source : String} (h : (Scan.source source).problems = []) :
    ∀ t ∈ (Scan.source source).tokens, t.kind ≠ .invalid := by
  intro t ht hinvalid
  obtain ⟨e, he⟩ := (Scan.tiles_source source).invalid_reported t ht hinvalid
  rw [h] at he
  cases he

namespace ParsedSource

/-- What the scan and the reading report of a text.  A scan in which no token was found is not read
any further. -/
def reported (s : Scan) : List Diagnostic :=
  if s.isBlocked then s.problems.map Diagnostic.ofLexical else (ofScan s).diagnostics

theorem reported_eq_nil {s : Scan} :
    reported s = [] ↔ s.problems = [] ∧ (Protocol.parse s.tokens).problems = [] := by
  unfold reported
  split
  · rename_i hblocked
    have hproblems : s.problems ≠ [] := by
      intro hnil
      simp [Scan.isBlocked, hnil] at hblocked
    exact iff_of_false (fun hnil => hproblems (List.map_eq_nil_iff.mp hnil)) fun h => hproblems h.1
  · simp [ofScan]

end ParsedSource

section

open ParsedSource

variable {source : String} {o : Options}

theorem compile_eq_error (h : reported (Scan.source source) ≠ []) :
    compile source o = .error (reported (Scan.source source)) := by
  unfold reported at h ⊢
  unfold compile
  dsimp only
  split
  · rfl
  · rename_i hblocked
    rw [if_neg hblocked] at h
    split
    · rename_i hnil
      exact absurd hnil h
    · rfl

/-- A text of which nothing is reported is compiled as the protocol it is read as. -/
theorem exists_compile_eq (h : reported (Scan.source source) = []) :
    ∃ p, (Protocol.parse (Scan.source source).tokens).value = some p ∧
      compile source o = p.compile o := by
  obtain ⟨hscan, hparse⟩ := reported_eq_nil.mp h
  obtain ⟨p, hp, -⟩ := Protocol.exists_standsIn_of_parse (Scan.ne_invalid_of_clean hscan) hparse
  have hblocked : (Scan.source source).isBlocked = false := by simp [Scan.isBlocked, hscan]
  have hprotocol : (ofScan (Scan.source source)).protocol = some p := hp
  have hdiagnostics : (ofScan (Scan.source source)).diagnostics = [] := by
    simp [ofScan, hscan, hparse]
  refine ⟨p, hp, ?_⟩
  simp only [compile, hblocked, hprotocol, hdiagnostics]
  rfl

end

namespace Compilation

/-- No stage has anything to report of a text. -/
structure IsClean (source : String) (o : Options) : Prop where
  scan : (Scan.source source).problems = []
  parse : (Protocol.parse (Scan.source source).tokens).problems = []
  analysis : ∀ p, (Protocol.parse (Scan.source source).tokens).value = some p →
    (p.analyze o).problems = []

/-- Nothing in a text had to be made up for: there is no text in it that is no token, `null` is
nowhere taken for an expression, and all expressions of its protocol stand in it. -/
structure IsAsWritten (source : String) : Prop where
  valid : ∀ t ∈ (Scan.source source).tokens, t.kind ≠ .invalid
  notFilledIn : ¬Protocol.FillsIn (Scan.source source).tokens
  stands : ∃ p, (Protocol.parse (Scan.source source).tokens).value = some p ∧
    ∀ e ∈ p.expressions, e.StandsIn (Scan.source source).tokens

/-- It is told why there is no decoder: there are diagnostics, the report has all of them in it, and
they are what the analysis has met, or what the scan and the reading have met, not both. -/
structure SaysWhy (source : String) (o : Options) (c : Compilation) : Prop where
  diagnostics : c.diagnostics ≠ []
  report : ∃ text, c.report = some text ∧
    ∀ d ∈ c.diagnostics, ∃ before behind, text = before ++ d.text ++ behind
  stages : (∃ p, (Protocol.parse (Scan.source source).tokens).value = some p ∧
      c.diagnostics = (p.analyze o).problems.map .ofSemantic) ∨
    c.diagnostics = ParsedSource.reported (Scan.source source)

variable {source : String} {o : Options}

theorem isClean_iff : IsClean source o ↔ ∃ d, compile source o = .ok d := by
  by_cases h : ParsedSource.reported (Scan.source source) = []
  · obtain ⟨p, hp, hcompile⟩ := exists_compile_eq h
    obtain ⟨hscan, hparse⟩ := ParsedSource.reported_eq_nil.mp h
    rw [hcompile, Protocol.compile_ok_iff]
    refine ⟨fun hclean => hclean.analysis p hp, fun hanalysis => ⟨hscan, hparse, ?_⟩⟩
    intro p' hp'
    obtain rfl := Option.some.inj (hp.symm.trans hp')
    exact hanalysis
  · refine iff_of_false (fun hclean => h ?_) fun ⟨d, hd⟩ => ?_
    · exact ParsedSource.reported_eq_nil.mpr ⟨hclean.scan, hclean.parse⟩
    · rw [compile_eq_error h] at hd
      cases hd

theorem IsClean.isAsWritten (h : IsClean source o) : IsAsWritten source := by
  have hvalid : ∀ t ∈ (Scan.source source).tokens, t.kind ≠ .invalid :=
    Scan.ne_invalid_of_clean h.scan
  exact ⟨hvalid, Protocol.not_fillsIn_of_parse hvalid h.parse,
    Protocol.exists_standsIn_of_parse hvalid h.parse⟩

theorem saysWhy_of_error {ds : List Diagnostic} (h : compile source o = .error ds) :
    SaysWhy source o (ofResult (.error ds)) := by
  have hreport : ∃ text, (ofResult (.error ds)).report = some text ∧
      ∀ d ∈ ds, ∃ before behind, text = before ++ d.text ++ behind :=
    ⟨Diagnostic.report ds, rfl, fun d hd => Diagnostic.exists_report_eq hd⟩
  by_cases hread : ParsedSource.reported (Scan.source source) = []
  · obtain ⟨p, hp, hcompile⟩ := exists_compile_eq hread
    rw [hcompile] at h
    obtain ⟨hproblems, rfl⟩ := Protocol.problems_of_compile h
    refine ⟨?_, hreport, .inl ⟨p, hp, rfl⟩⟩
    exact fun hnil => hproblems (List.map_eq_nil_iff.mp hnil)
  · obtain rfl := Except.error.inj (h.symm.trans (compile_eq_error hread))
    exact ⟨hread, hreport, .inr rfl⟩

/-- A decoder comes of a text exactly if every stage finds it clean, and then the text is read as it
is written.  Where there is no decoder, it is told why. -/
theorem decoder_iff_isClean (source : String) (o : Options) :
    ((ofSource source o).decoder.isSome ↔ IsClean source o) ∧
    ((ofSource source o).decoder.isSome → IsAsWritten source) ∧
    ((ofSource source o).decoder = none → SaysWhy source o (ofSource source o)) := by
  cases hcompile : compile source o with
  | ok d =>
      have hclean : IsClean source o := isClean_iff.mpr ⟨d, hcompile⟩
      have hdecoder : (ofSource source o).decoder = some d := by rw [ofSource, hcompile]; rfl
      rw [hdecoder]
      exact ⟨iff_of_true rfl hclean, fun _ => hclean.isAsWritten, nofun⟩
  | error ds =>
      have hunclean : ¬IsClean source o := by
        intro hclean
        obtain ⟨d, hd⟩ := isClean_iff.mp hclean
        rw [hcompile] at hd
        cases hd
      have hsource : ofSource source o = ofResult (.error ds) := by rw [ofSource, hcompile]
      rw [hsource]
      exact ⟨iff_of_false nofun hunclean, nofun, fun _ => saysWhy_of_error hcompile⟩

/-- A definition in which a member of an enum has no value. -/
def valueless : String := "protocol P \x7b enum E \x7b A = \x7d \x7d"

def valuelessTokens : List Token :=
  [⟨.keyword .protocol, "protocol", ⟨1, 1, 0⟩⟩, ⟨.identifier "P", "P", ⟨1, 10, 9⟩⟩,
    ⟨.symbol .braceOpen, "\x7b", ⟨1, 12, 11⟩⟩, ⟨.keyword .enum, "enum", ⟨1, 14, 13⟩⟩,
    ⟨.identifier "E", "E", ⟨1, 19, 18⟩⟩, ⟨.symbol .braceOpen, "\x7b", ⟨1, 21, 20⟩⟩,
    ⟨.identifier "A", "A", ⟨1, 23, 22⟩⟩, ⟨.symbol .assign, "=", ⟨1, 25, 24⟩⟩,
    ⟨.symbol .braceClose, "\x7d", ⟨1, 27, 26⟩⟩, ⟨.symbol .braceClose, "\x7d", ⟨1, 29, 28⟩⟩,
    ⟨.endOfInput, "", ⟨1, 30, 29⟩⟩]

theorem tokens_valueless : (Scan.source valueless).tokens = valuelessTokens := by decide +kernel

/-- The value is filled in, at the brace that closes the enum. -/
theorem fillsIn_valueless : Protocol.FillsIn (Scan.source valueless).tokens := by
  rw [tokens_valueless]
  have hfills (close : Position) : Expression.FillsIn close (Expression.primary 99)
      (valuelessTokens.drop 8) := .missing rfl nofun rfl
  have hvalue (close : Position) : Parser.Reaches close (Expression.primary 99)
      (valuelessTokens.drop 8) Expression.expression (valuelessTokens.drop 8) :=
    Expression.reaches_primary 99 rfl
  refine ⟨Expression.primary 99, valuelessTokens.drop 8, hfills _, ?_⟩
  -- Through the body of the protocol to the enum, through its body to the member, and to its value.
  refine .behind rfl (.behind rfl (.behind rfl (.behind rfl (.behind rfl ?_))))
  refine .first _ (.turn rfl (.behind rfl (.first _ ?_)))
  refine .behind rfl (.behind rfl (.behind rfl (.first _ (.first _ (.turn rfl ?_)))))
  exact .behind rfl (.behind rfl (.first _ (hvalue _)))

theorem decoder_iff_isClean_valueless : Protocol.FillsIn (Scan.source valueless).tokens ∧
    (ofSource valueless {}).decoder = none ∧ SaysWhy valueless {} (ofSource valueless {}) := by
  obtain ⟨-, hwritten, hwhy⟩ := decoder_iff_isClean valueless {}
  have hnone : (ofSource valueless {}).decoder = none := by
    apply Option.not_isSome_iff_eq_none.mp
    intro hsome
    exact (hwritten hsome).notFilledIn fillsIn_valueless
  exact ⟨fillsIn_valueless, hnone, hwhy hnone⟩

end Compilation

end WireSpec

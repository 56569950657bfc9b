import Javelet.Compile
import Javelet.Proofs.Positions.Code
import Javelet.Proofs.Positions.Declarations
import Javelet.Proofs.Positions.Scopes
import Javelet.Proofs.Positions.Types
import Mathlib.Data.List.Forall2

/-!
# Layout

Blanks, comments, the ends of lines and escapes only decide where the tokens of a source text stand.
What is made of the tokens does not depend on it: from the same words a compilation gives the same
text, or as many diagnostics that are told alike. Each stage adds its part. The readers give the
same tree but for positions; types and scopes are the same for such trees, and so is the code.
-/
namespace Javelet

/-! ## Stages -/

variable (f : Position → Position) (p p' : Program)

/-- Faults at new positions are told there. -/
theorem diagnostics_marked {F : Type} [Explained F] (ls : Array (Located F)) :
    (ls.map (Located.marked (.moved f))).toList.map Located.diagnostic =
      (ls.toList.map Located.diagnostic).map (Diagnostic.moved f) := by
  rw [Array.toList_map, List.map_map, List.map_map]
  rfl

/-- The types and the names of a program are analyzed alike wherever its nodes stand. -/
theorem analyze_moved : analyze (p.marked (.moved f)) =
    (analyze p).mapError (List.map (Diagnostic.moved f)) := by
  have hempty : ∀ {F : Type} (ls : Array (Located F)),
      (ls.map (Located.marked (.moved f))).isEmpty = ls.isEmpty := fun ls => by
    rw [Array.isEmpty, Array.isEmpty, Array.size_map]
  simp only [analyze, Types.collect_marked, Types.Collected.marked, Scope.resolve_moved,
    Scope.Resolved.marked, hempty, diagnostics_marked]
  split
  · split
    · rfl
    · rfl
  · rfl

theorem generate_moved (analysis : Analysis) : generate (p.marked (.moved f)) analysis =
    (generate p analysis).mapError (Diagnostic.moved f) := by
  rw [generate, generate, Lowering.program_moved]
  cases Lowering.program analysis.table analysis.arena p <;> rfl

variable {p p'}

theorem analyze_sameText (h : p'.marked .unplaced = p.marked .unplaced) :
    (∃ analysis, analyze p = .ok analysis ∧ analyze p' = .ok analysis) ∨
      ∃ ds ds', analyze p = .error ds ∧ analyze p' = .error ds' ∧
        List.Forall₂ Diagnostic.SameText ds ds' := by
  have hsame := (analyze_moved _ p').symm.trans ((congrArg analyze h).trans (analyze_moved _ p))
  generalize analyze p = o, analyze p' = o' at hsame
  cases o with
  | ok analysis =>
    cases o' with
    | ok analysis' => exact .inl ⟨analysis, rfl, congrArg _ (Except.ok.inj hsame)⟩
    | error ds' => cases hsame
  | error ds =>
    cases o' with
    | ok analysis' => cases hsame
    | error ds' =>
      have htold := Except.error.inj hsame
      rw [← List.forall₂_eq_eq_eq, List.forall₂_map_left_iff, List.forall₂_map_right_iff] at htold
      exact .inr ⟨ds, ds', rfl, rfl, htold.flip.imp fun _ _ => sameText_of_moved⟩

theorem generate_sameText (h : p'.marked .unplaced = p.marked .unplaced) (analysis : Analysis) :
    (∃ text, generate p analysis = .ok text ∧ generate p' analysis = .ok text) ∨
      ∃ d d', generate p analysis = .error d ∧ generate p' analysis = .error d' ∧
        d.SameText d' := by
  have hsame := (generate_moved _ p' analysis).symm.trans
    ((congrArg (generate · analysis) h).trans (generate_moved _ p analysis))
  generalize generate p analysis = o, generate p' analysis = o' at hsame
  cases o with
  | ok text =>
    cases o' with
    | ok text' => exact .inl ⟨text, rfl, congrArg _ (Except.ok.inj hsame)⟩
    | error d' => cases hsame
  | error d =>
    cases o' with
    | ok text' => cases hsame
    | error d' => exact .inr ⟨d, d', rfl, rfl, sameText_of_moved (Except.error.inj hsame)⟩

/-! ## Compilations -/

section Stages

variable {source : String} {d : Diagnostic} {ds : List Diagnostic} {analysis : Analysis}

theorem compile_of_refused (h : parseSource source = .error d) : compile source = .error [d] := by
  rw [compile, h]
  rfl

theorem compile_of_faults (h : parseSource source = .ok p) (hds : analyze p = .error ds) :
    compile source = .error ds := by
  rw [compile, h]
  show (analyze p >>= _) = _
  rw [hds]
  rfl

theorem compile_of_analysis (h : parseSource source = .ok p) (ha : analyze p = .ok analysis) :
    compile source = (generate p analysis).mapError List.singleton := by
  rw [compile, h]
  show (analyze p >>= _) = _
  rw [ha]
  rfl

theorem parseSource_of_tokens {ts : List Token} (h : tokenize source = .ok ts) :
    parseSource source = (parse ts).mapError Located.diagnostic := by
  rw [parseSource, h]
  rfl

end Stages

/-- The words of a token list, one after the other. -/
def words (ts : List Token) : List (Kind × String) := ts.map fun t => (t.kind, t.text)

theorem sameWords_of_words {ts ts' : List Token} (h : words ts' = words ts) : SameWords ts ts' := by
  have hmoved : ∀ us, movedTokens (fun _ => .start) us =
      (words us).map fun w => ⟨w.1, w.2, .start⟩ := fun us => by
    rw [words, List.map_map]
    rfl
  rw [SameWords, hmoved, hmoved, h]

/-- A compilation depends on the words of its source text alone. -/
theorem compile_layout {source source' : String} {ts ts' : List Token}
    (h : tokenize source = .ok ts) (h' : tokenize source' = .ok ts') (hwords : words ts' = words ts) :
    (∃ text, compile source = .ok text ∧ compile source' = .ok text) ∨
      ∃ ds ds', compile source = .error ds ∧ compile source' = .error ds' ∧
        List.Forall₂ Diagnostic.SameText ds ds' := by
  have hparse := parse_sameProgram (sameWords_of_words hwords)
  have hsource := parseSource_of_tokens h
  have hsource' := parseSource_of_tokens h'
  generalize parse ts = o, parse ts' = o' at hparse hsource hsource'
  cases hparse with
  | error htold =>
    exact .inr ⟨_, _, compile_of_refused hsource, compile_of_refused hsource', .cons htold .nil⟩
  | @ok p p' hp =>
    rcases analyze_sameText hp with ⟨analysis, ha, ha'⟩ | ⟨ds, ds', hds, hds', htold⟩
    · rw [compile_of_analysis hsource ha, compile_of_analysis hsource' ha']
      rcases generate_sameText hp analysis with ⟨text, hg, hg'⟩ | ⟨d, d', hg, hg', htold⟩
      · exact .inl ⟨text, congrArg _ hg, congrArg _ hg'⟩
      · exact .inr ⟨[d], [d'], congrArg _ hg, congrArg _ hg', .cons htold .nil⟩
    · exact .inr ⟨ds, ds', compile_of_faults hsource hds, compile_of_faults hsource' hds', htold⟩

/-- A method that returns a name that nothing declares. -/
def strayName : String := "class A \x7b int f() \x7b return y; \x7d \x7d"

/-- The same method with comments, an escape and other ends of lines. -/
def strayNameSpread : String :=
  "class /* first */ \\u0041 \x7b\r\n\tint f()\r\n\t\x7b\r\n\t\treturn y; // nowhere\n\t\x7d\n\x7d\n"

/-- Both sources have the same words, and the same is told of the name, at different places. -/
theorem strayName_layout : ∃ ts ts' ds ds', tokenize strayName = .ok ts ∧
    tokenize strayNameSpread = .ok ts' ∧ words ts' = words ts ∧
    compile strayName = .error ds ∧ compile strayNameSpread = .error ds' ∧
    List.Forall₂ Diagnostic.SameText ds ds' ∧
    ds.map Diagnostic.position = [⟨1, 27⟩] ∧ ds'.map Diagnostic.position = [⟨4, 15⟩] := by
  have hok : (tokenize strayName).isOk ∧ (tokenize strayNameSpread).isOk := by
    rw [tokenize_ofList (s := strayName) rfl, tokenize_ofList (s := strayNameSpread) rfl]
    decide +kernel
  have hwords : (tokenize strayNameSpread).toOption.map words =
      (tokenize strayName).toOption.map words := by
    rw [tokenize_ofList (s := strayName) rfl, tokenize_ofList (s := strayNameSpread) rfl]
    decide +kernel
  have hplaces : (compile strayName).mapError (List.map Diagnostic.position) = .error [⟨1, 27⟩] ∧
      (compile strayNameSpread).mapError (List.map Diagnostic.position) = .error [⟨4, 15⟩] := by
    rw [compile, compile, parseSource, parseSource, tokenize_ofList (s := strayName) rfl,
      tokenize_ofList (s := strayNameSpread) rfl]
    decide +kernel
  cases h : tokenize strayName with
  | error l =>
    rw [h] at hok
    cases hok.1
  | ok ts =>
    cases h' : tokenize strayNameSpread with
    | error l =>
      rw [h'] at hok
      cases hok.2
    | ok ts' =>
      rw [h, h'] at hwords
      have hwords : words ts' = words ts := Option.some.inj hwords
      rcases compile_layout h h' hwords with ⟨text, hc, -⟩ | ⟨ds, ds', hds, hds', htold⟩
      · rw [hc] at hplaces
        cases hplaces.1
      · rw [hds, hds'] at hplaces
        exact ⟨ts, ts', ds, ds', rfl, rfl, hwords, hds, hds', htold,
          Except.error.inj hplaces.1, Except.error.inj hplaces.2⟩

end Javelet

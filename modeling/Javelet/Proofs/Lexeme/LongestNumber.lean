import Javelet.Proofs.Lexeme.NumberScans

/-!
# The longest number literal

The scanner is greedy, part by part, and gives up where a part goes wrong. What it finds is the
longest number literal all the same: if there were a longer one, the scanner would find both of them
in the characters of the longer one.
-/
namespace Javelet.Lexeme

theorem isRun_singleton {d : Char} (hd : d.isDigit = true) : IsRun 10 [d] := by
  have hrun : Text.isDigitOf 10 d = true := by
    have hpart := inRun_ten_of_isDigit (c := ⟨d, .start⟩) hd
    rw [inRun, Bool.or_eq_true] at hpart
    refine hpart.resolve_right fun h => ?_
    obtain rfl : d = '_' := eq_of_beq h
    cases hd
  refine ⟨fun c hc => ?_, ⟨d, rfl, hrun⟩, d, rfl, hrun⟩
  rw [List.mem_singleton.1 hc]
  exact .inl hrun

theorem isScale_nil : IsScale [] := .mk (.inl rfl) (.inl rfl)

theorem isNumber_digit {d : Char} (hd : d.isDigit = true) : IsNumber .integer [d] :=
  .integer (.decimal (isRun_singleton hd) (fun hlong => absurd hlong (by simp)) (.inl rfl))

/-- Digits, a point and one more digit. -/
theorem isNumber_point {run : List Char} {d : Char} (hrun : run = [] ∨ IsRun 10 run)
    (hd : d.isDigit = true) : IsNumber .floating (run ++ ['.', d]) :=
  .floating (.fraction hrun (.mk (isRun_singleton hd)) isScale_nil)

/-- There is a longest literal if there is one at all. -/
theorem exists_longestNumber {text t : List Char} (hfront : t <+: text)
    (ht : ∃ kind, IsNumber kind t) : ∃ t', LongestNumber text t' := by
  by_cases hlonger : ∃ t', t' <+: text ∧ (∃ kind, IsNumber kind t') ∧ t.length < t'.length
  · obtain ⟨t', hfront', ht', hlen⟩ := hlonger
    have := hfront'.length_le
    exact exists_longestNumber hfront' ht'
  · refine ⟨t, hfront, ht, fun t' hfront' ht' => ?_⟩
    exact Nat.not_lt.1 fun hlen => hlonger ⟨t', hfront', ht', hlen⟩
termination_by text.length - t.length

/-- At a digit or at a point with a digit behind it there is a longest literal. -/
theorem exists_longestNumber_of_startsNumber {cs : List SourceChar} (h : startsNumber cs = true) :
    ∃ t, LongestNumber (textOf cs) t := by
  rcases startsNumber_cases h with ⟨c, more, rfl, hc⟩ | ⟨c, d, more, rfl, hc, hd⟩
  · exact exists_longestNumber (t := [c.char]) ⟨textOf more, rfl⟩ ⟨_, isNumber_digit hc⟩
  · refine exists_longestNumber (t := ['.', d.char]) ⟨textOf more, ?_⟩
      ⟨_, isNumber_point (.inl rfl) hd⟩
    simp [hc]

/-- Both of two literals would be found where nothing follows the longer one. -/
theorem length_le_of_literals {kind kind' : Kind} {used rest : List SourceChar} {t : List Char}
    (hends : Ends rest) (h : Literals kind (textOf used) rest) (hfront : t <+: textOf (used ++ rest))
    (ht : IsNumber kind' t) : t.length ≤ (textOf used).length := by
  apply Classical.byContradiction
  intro hlonger
  have hused : textOf used <+: textOf (used ++ rest) := ⟨textOf rest, (textOf_append used rest).symm⟩
  obtain ⟨tail, rfl⟩ := List.prefix_of_prefix_length_le hused hfront (Nat.le_of_not_le hlonger)
  rw [textOf_append, List.prefix_append_right_inj] at hfront
  obtain ⟨extra, hrest⟩ := hfront
  obtain ⟨more, after, rfl, rfl, -⟩ := exists_append_of_textOf hrest.symm
  rw [← textOf_append] at ht
  have hstarts := ht.startsNumber []
  rw [List.append_nil] at hstarts
  have hlong : number .start (used ++ more) = .token kind' (textOf (used ++ more)) .start [] := by
    refine (finds_number .start hstarts _ _ _).2 ⟨_, (List.append_nil _).symm, rfl, nofun, ht, ?_⟩
    rintro - ⟨_, _, _, hnil, -⟩
    cases hnil
  have hshort : number .start (used ++ more) = .token kind (textOf used) .start more := by
    refine (finds_number .start hstarts _ _ _).2 ⟨used, rfl, rfl, fun c hc => hends c ?_, h.1, ?_⟩
    · rw [List.head?_append, Option.mem_def.1 hc]
      rfl
    · rintro hall ⟨c, d, tail, rfl, hpoint⟩
      exact h.2 hall ⟨c, d, tail ++ after, rfl, hpoint⟩
  obtain ⟨-, -, rfl⟩ := Scan.token_inj.1 (hshort.symm.trans hlong)
  simp at hlonger

theorem isRun_of_isNumber {kind : Kind} {t : List Char} (ht : IsNumber kind t)
    (hall : ∀ c ∈ t, runChar 10 c = true) : IsRun 10 t := by
  rcases isNumber_iff.1 ht with ⟨x, radix, more, rfl, hx, -⟩ | ⟨run, more, rfl, hrun, hs, hpoint⟩
  · exact absurd (hall x (by simp)) (of_markedRadix? hx).2.1
  · obtain rfl := eq_nil_of_fractions hs fun c hc => hall c (List.mem_append_right run hc)
    rw [List.append_nil]
    refine hrun.resolve_left fun hnil => ?_
    cases hpoint hnil

/-- Where a fraction follows, there is a longer literal. -/
theorem closed_of_longest {kind : Kind} {used rest : List SourceChar}
    (ht : IsNumber kind (textOf used)) (h : LongestNumber (textOf (used ++ rest)) (textOf used)) :
    Closed (textOf used) rest := by
  rintro hall ⟨c, d, more, rfl, hc, hd⟩
  have hpoint := isNumber_point (.inr (isRun_of_isNumber ht hall)) hd
  have hlong := h.longest _ ⟨textOf more, by simp [hc]⟩ ⟨_, hpoint⟩
  rw [List.length_append] at hlong
  exact absurd hlong (Nat.not_le.2 (Nat.lt_add_of_pos_right (Nat.zero_lt_succ _)))

/-- A literal that no word runs into is the longest one if no fraction could be added. -/
theorem literals_iff {kind : Kind} {used rest : List SourceChar} (hends : Ends rest) :
    Literals kind (textOf used) rest ↔
      IsNumber kind (textOf used) ∧ LongestNumber (textOf (used ++ rest)) (textOf used) := by
  constructor
  · intro h
    refine ⟨h.1, ⟨textOf rest, (textOf_append used rest).symm⟩, ⟨kind, h.1⟩, ?_⟩
    rintro t hfront ⟨kind', ht⟩
    exact length_le_of_literals hends h hfront ht
  · rintro ⟨ht, h⟩
    exact ⟨ht, closed_of_longest ht h⟩

/-- At a digit, or at a point with a digit behind it, a text has a longest number literal. The scanner
finds this literal, as a token of its kind, and leaves what is behind it, unless a word goes on there;
and in this case the scanner refuses the number. -/
theorem number_longest (p : Position) (cs : List SourceChar)
    (h : (∃ c ∈ cs.head?, c.char.isDigit = true) ∨ PointFollows cs) :
    (∃ t, LongestNumber (textOf cs) t) ∧
      (∀ kind t rest, number p cs = .token kind t p rest ↔
        LongestNumber (textOf cs) t ∧ IsNumber kind t ∧ rest = cs.drop t.length ∧ Ends rest) ∧
      ((∀ kind t rest, number p cs ≠ .token kind t p rest) →
        ∃ text reason rest, number p cs = .fault (.badNumber text reason) p rest) := by
  have hstarts : startsNumber cs = true := by
    rcases h with ⟨c, hc, hdigit⟩ | ⟨c, d, more, rfl, hc, hd⟩
    · obtain ⟨more, rfl⟩ := List.head?_eq_some_iff.1 hc
      simp [startsNumber, hdigit]
    · simp [startsNumber, hc, hd]
  refine ⟨exists_longestNumber_of_startsNumber hstarts, fun kind t rest => ?_, fun hnone => ?_⟩
  · rw [finds_number p hstarts]
    constructor
    · rintro ⟨used, rfl, rfl, hends, hs⟩
      obtain ⟨ht, hlongest⟩ := (literals_iff hends).1 hs
      exact ⟨hlongest, ht, by simp [textOf], hends⟩
    · rintro ⟨hlongest, ht, rfl, hends⟩
      obtain ⟨extra, hextra⟩ := hlongest.front
      obtain ⟨used, rest, rfl, rfl, -⟩ := exists_append_of_textOf hextra.symm
      have hdrop : (used ++ rest).drop (textOf used).length = rest := by simp [textOf]
      rw [hdrop] at hends ⊢
      exact ⟨used, rfl, rfl, hends, (literals_iff hends).2 ⟨ht, hlongest⟩⟩
  · refine (isNumeric_number p cs).resolve_left ?_
    rintro ⟨kind, -, t, rest, htoken⟩
    exact hnone kind t rest htoken

/-- Eight and nine are fine behind a zero if a fraction follows, and the exponent is read, too. -/
theorem longestNumber_leading_zero : LongestNumber "09.5e1;".toList "09.5e1".toList :=
  (((number_longest .start ("09.5e1;".toList.map fun c => ⟨c, .start⟩)
    (.inl ⟨_, rfl, by decide⟩)).2.1 .floating "09.5e1".toList _).1 rfl).1

end Javelet.Lexeme

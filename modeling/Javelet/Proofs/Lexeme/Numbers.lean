import Javelet.Lexeme.Number

/-!
# Number literals are read again

A scanner decides by the characters that it uses up and by one or two characters behind them. If
it has found a token, it finds the same token in the characters that it used up, wherever they
stand, as long as a blank or nothing follows. The lemmas about scanners in general say this of an
optional character and of a run of characters; the parts of a number literal are made of these.
-/
namespace Javelet.Lexeme

/-- Characters that cannot continue a lexeme: none, or a blank first. -/
def Apart (cs : List SourceChar) : Prop := ∀ c ∈ cs.head?, c.char = ' '

/-- Characters that stand for themselves in a raw text. -/
def IsRaw (c : Char) : Prop := c ≠ '\\' ∧ c ≠ '\r'

/-- A scanner that finds a token again in the characters that it used up. The token is spelled
`before`, then these characters. -/
def Rescans (scan : Position → List SourceChar → Scan) (before : List Char) : Prop :=
  ∀ p cs t rest, scan p cs = ⟨.ok t, rest⟩ →
    ∃ used, cs = used ++ rest ∧ t.spelling = String.ofList (before ++ textOf used) ∧
      (∀ c ∈ textOf used, IsRaw c) ∧
      ∀ p' again rest', textOf again = textOf used → Apart rest' →
        scan p' (again ++ rest') = ⟨.ok ⟨t.kind, t.text, p'⟩, rest'⟩

/-! ## Looking ahead -/

section Ahead

variable {used again rest rest' : List SourceChar}

@[simp] theorem textOf_nil : textOf [] = [] := rfl

@[simp] theorem textOf_cons (c : SourceChar) (cs : List SourceChar) :
    textOf (c :: cs) = c.char :: textOf cs := rfl

@[simp] theorem textOf_append (cs cs' : List SourceChar) :
    textOf (cs ++ cs') = textOf cs ++ textOf cs' := List.map_append

theorem eq_nil_of_textOf (h : textOf again = []) : again = [] := List.map_eq_nil_iff.1 h

theorem exists_cons_of_textOf {c : Char} {text : List Char} (h : textOf again = c :: text) :
    ∃ d more, again = d :: more ∧ d.char = c ∧ textOf more = text := by
  cases again with
  | nil => cases h
  | cons d more =>
    cases h
    exact ⟨d, more, rfl, rfl, rfl⟩

/-- What is true of the first character, if there is one, is true of it again. -/
theorem head_again {q : Char → Prop} (hblank : q ' ') (h : textOf again = textOf used)
    (ha : Apart rest') (hq : ∀ c ∈ (used ++ rest).head?, q c.char) :
    ∀ c ∈ (again ++ rest').head?, q c.char := by
  intro c hc
  cases used with
  | nil =>
    obtain rfl := eq_nil_of_textOf h
    rw [ha c hc]
    exact hblank
  | cons u used =>
    obtain ⟨d, more, rfl, hd, -⟩ := exists_cons_of_textOf h
    cases hc
    rw [hd]
    exact hq u rfl

/-- What is not true of the first two characters is not true of them again, if it is never true
of a blank. -/
theorem two_again {q : Char → Char → Prop} (hfirst : ∀ d, ¬ q ' ' d) (hsecond : ∀ c, ¬ q c ' ')
    (h : textOf again = textOf used) (ha : Apart rest')
    (hq : ∀ c d more, used ++ rest = c :: d :: more → ¬ q c.char d.char) :
    ∀ c d more, again ++ rest' = c :: d :: more → ¬ q c.char d.char := by
  intro c d more he
  match used with
  | [] =>
    obtain rfl := eq_nil_of_textOf h
    have hblank : c.char = ' ' := ha c (by rw [List.nil_append] at he; rw [he]; rfl)
    rw [hblank]
    exact hfirst _
  | [u] =>
    obtain ⟨d', more', rfl, hd', hmore⟩ := exists_cons_of_textOf h
    obtain rfl := eq_nil_of_textOf hmore
    rw [List.cons_append, List.nil_append, List.cons.injEq] at he
    have hblank : d.char = ' ' := ha d (by rw [he.2]; rfl)
    rw [hblank]
    exact hsecond _
  | u :: v :: used =>
    obtain ⟨c', more', rfl, hc', hmore⟩ := exists_cons_of_textOf h
    obtain ⟨d', more'', rfl, hd', -⟩ := exists_cons_of_textOf hmore
    cases he
    rw [hc', hd']
    exact hq u v _ rfl

/-- A run ends where the first character outside of it stands. -/
theorem span_append {q : SourceChar → Bool} {run tail : List SourceChar}
    (hin : ∀ c ∈ run, q c = true) (hout : ∀ c ∈ tail.head?, q c = false) :
    (run ++ tail).takeWhile q = run ∧ (run ++ tail).dropWhile q = tail := by
  rw [List.takeWhile_append_of_pos hin, List.dropWhile_append_of_pos hin]
  cases tail with
  | nil => simp
  | cons c tail => simp [hout c rfl]

theorem head?_dropWhile_eq_false (q : SourceChar → Bool) (cs : List SourceChar) :
    ∀ c ∈ (cs.dropWhile q).head?, q c = false := by
  intro c hc
  have hnot := List.head?_dropWhile_not q cs
  rw [Option.mem_def.1 hc] at hnot
  exact hnot

end Ahead

/-! ## Scanners in general -/

section Scanners

variable {before : List Char} {scan : Position → List SourceChar → Scan}

/-- A scanner that does nothing but hand on. -/
theorem Rescans.congr {scan' : Position → List SourceChar → Scan} (h : Rescans scan' before)
    (he : ∀ p cs, scan p cs = scan' p cs) : Rescans scan before := by
  intro p cs t rest hscan
  rw [he] at hscan
  obtain ⟨used, hcs, htext, hraw, hagain⟩ := h _ _ _ _ hscan
  refine ⟨used, hcs, htext, hraw, ?_⟩
  intro p' again rest' htextOf ha
  rw [he]
  exact hagain p' again rest' htextOf ha

theorem rescans_fault (f : Fault) (leave : List SourceChar → List SourceChar) :
    Rescans (fun p cs => .fault f p (leave cs)) before := by
  intro p cs t rest h
  cases h

/-- An optional character, taken if it is one of those in question. -/
theorem rescans_optional (q : Char → Prop) [DecidablePred q]
    (take : Char → Position → List SourceChar → Scan) (skip : Position → List SourceChar → Scan)
    (hscan : ∀ p c more, scan p (c :: more) =
      if q c.char then take c.char p more else skip p (c :: more))
    (hnil : ∀ p, scan p [] = skip p []) (hblank : ¬ q ' ') (hraw : ∀ c, q c → IsRaw c)
    (htake : ∀ c, q c → Rescans (take c) (before ++ [c])) (hskip : Rescans skip before) :
    Rescans scan before := by
  have hhead : ∀ p cs, (∀ c ∈ cs.head?, ¬ q c.char) → scan p cs = skip p cs := by
    intro p cs hcs
    cases cs with
    | nil => exact hnil p
    | cons c more => rw [hscan, if_neg (hcs c rfl)]
  intro p cs t rest h
  by_cases hcs : ∀ c ∈ cs.head?, ¬ q c.char
  · rw [hhead p cs hcs] at h
    obtain ⟨used, rfl, htext, hall, hagain⟩ := hskip _ _ _ _ h
    refine ⟨used, rfl, htext, hall, ?_⟩
    intro p' again rest' htextOf ha
    rw [hhead p' _ (head_again (q := fun c => ¬ q c) hblank htextOf ha hcs)]
    exact hagain p' again rest' htextOf ha
  · cases cs with
    | nil => exact absurd nofun hcs
    | cons c more =>
      have hq : q c.char := by
        apply Classical.byContradiction
        intro hq
        apply hcs
        rintro _ ⟨⟩
        exact hq
      rw [hscan, if_pos hq] at h
      obtain ⟨used, rfl, htext, hall, hagain⟩ := htake c.char hq _ _ _ _ h
      refine ⟨c :: used, rfl, by rw [htext]; simp, ?_, ?_⟩
      · rw [textOf_cons, List.forall_mem_cons]
        exact ⟨hraw _ hq, hall⟩
      · intro p' again rest' htextOf ha
        obtain ⟨d, more, rfl, hd, hmore⟩ := exists_cons_of_textOf htextOf
        rw [List.cons_append, hscan, hd, if_pos hq]
        exact hagain p' more rest' hmore ha

/-- Two optional characters, taken together or not at all. -/
theorem rescans_pair (q : Char → Char → Prop) [∀ c d, Decidable (q c d)]
    (take : Char → Char → Position → List SourceChar → Scan)
    (skip : Position → List SourceChar → Scan)
    (hscan : ∀ p c d more, scan p (c :: d :: more) =
      if q c.char d.char then take c.char d.char p more else skip p (c :: d :: more))
    (hnil : ∀ p, scan p [] = skip p []) (hone : ∀ p c, scan p [c] = skip p [c])
    (hfirst : ∀ d, ¬ q ' ' d) (hsecond : ∀ c, ¬ q c ' ')
    (hraw : ∀ c d, q c d → IsRaw c ∧ IsRaw d)
    (htake : ∀ c d, q c d → Rescans (take c d) (before ++ [c, d])) (hskip : Rescans skip before) :
    Rescans scan before := by
  have hpass : ∀ p cs, (∀ c d more, cs = c :: d :: more → ¬ q c.char d.char) →
      scan p cs = skip p cs := by
    intro p cs hcs
    match cs with
    | [] => exact hnil p
    | [c] => exact hone p c
    | c :: d :: more => rw [hscan, if_neg (hcs c d more rfl)]
  intro p cs t rest h
  by_cases hcs : ∃ c d more, cs = c :: d :: more ∧ q c.char d.char
  · obtain ⟨c, d, more, rfl, hq⟩ := hcs
    rw [hscan, if_pos hq] at h
    obtain ⟨used, rfl, htext, hall, hagain⟩ := htake _ _ hq _ _ _ _ h
    refine ⟨c :: d :: used, rfl, by rw [htext]; simp, ?_, ?_⟩
    · rw [textOf_cons, textOf_cons, List.forall_mem_cons, List.forall_mem_cons]
      exact ⟨(hraw _ _ hq).1, (hraw _ _ hq).2, hall⟩
    · intro p' again rest' htextOf ha
      obtain ⟨c', more', rfl, hc', hmore⟩ := exists_cons_of_textOf htextOf
      obtain ⟨d', more'', rfl, hd', hmore'⟩ := exists_cons_of_textOf hmore
      rw [List.cons_append, List.cons_append, hscan, hc', hd', if_pos hq]
      exact hagain p' more'' rest' hmore' ha
  · have hnot : ∀ c d more, cs = c :: d :: more → ¬ q c.char d.char :=
      fun c d more he hq => hcs ⟨c, d, more, he, hq⟩
    rw [hpass p cs hnot] at h
    obtain ⟨used, rfl, htext, hall, hagain⟩ := hskip _ _ _ _ h
    refine ⟨used, rfl, htext, hall, ?_⟩
    intro p' again rest' htextOf ha
    rw [hpass p' _ (two_again hfirst hsecond htextOf ha hnot)]
    exact hagain p' again rest' htextOf ha

/-- The longest run of certain characters. -/
theorem rescans_run (q : Char → Bool) (bad : List Char → Prop) [DecidablePred bad]
    (fault : List Char → Fault) (next : List Char → Position → List SourceChar → Scan)
    (hscan : ∀ p cs, scan p cs =
      if bad (textOf (cs.takeWhile fun c => q c.char)) then
        .fault (fault (textOf (cs.takeWhile fun c => q c.char))) p
          (cs.dropWhile fun c => q c.char)
      else next (textOf (cs.takeWhile fun c => q c.char)) p (cs.dropWhile fun c => q c.char))
    (hblank : q ' ' = false) (hraw : ∀ c, q c = true → IsRaw c)
    (hnext : ∀ run, Rescans (next run) (before ++ run)) : Rescans scan before := by
  intro p cs t rest h
  rw [hscan] at h
  split at h
  · cases h
  · rename_i hgood
    obtain ⟨used, hcs, htext, hall, hagain⟩ := hnext _ _ _ _ _ h
    refine ⟨cs.takeWhile (fun c => q c.char) ++ used, ?_, ?_, ?_, ?_⟩
    · rw [List.append_assoc, ← hcs, List.takeWhile_append_dropWhile]
    · rw [htext, textOf_append, List.append_assoc]
    · intro c hc
      rw [textOf_append, List.mem_append] at hc
      rcases hc with hc | hc
      · obtain ⟨d, hd, rfl⟩ := List.mem_map.1 hc
        exact hraw _ (List.all_eq_true.1 List.all_takeWhile d hd)
      · exact hall c hc
    · intro p' again rest' htextOf ha
      rw [textOf_append] at htextOf
      obtain ⟨run, tail, rfl, hrun, htail⟩ := List.map_eq_append_iff.1 htextOf
      -- the run ends where it ended before
      have hin : ∀ c ∈ run, q c.char = true := by
        intro c hc
        have hmem : c.char ∈ textOf (cs.takeWhile fun c => q c.char) :=
          hrun ▸ List.mem_map_of_mem hc
        obtain ⟨d, hd, he⟩ := List.mem_map.1 hmem
        rw [← he]
        exact List.all_eq_true.1 List.all_takeWhile d hd
      have hend : ∀ c ∈ (used ++ rest).head?, q c.char = false := by
        rw [← hcs]
        exact head?_dropWhile_eq_false _ cs
      have hout := head_again (q := fun c => q c = false) hblank htail ha hend
      obtain ⟨htake, hdrop⟩ := span_append (q := fun c => q c.char) hin hout
      rw [List.append_assoc, hscan, htake, hdrop, show textOf run = _ from hrun, if_neg hgood]
      exact hagain p' tail rest' htail ha

end Scanners

/-! ## The parts of a number literal -/

theorem digitValue?_eq_none {c : Char} (h : c = '\\' ∨ c = '\r' ∨ c = ' ') :
    Text.digitValue? c = none := by
  rcases h with rfl | rfl | rfl
  · decide
  · decide
  · decide

/-- Characters of a digit run stand for themselves. -/
theorem isRaw_of_inRun {radix : Nat} {c : SourceChar} (h : inRun radix c = true) :
    IsRaw c.char := by
  have hnot : ∀ d, d = '\\' ∨ d = '\r' → c.char ≠ d := by
    rintro d hd rfl
    have hvalue := digitValue?_eq_none (hd.imp_right .inl)
    simp only [inRun, Text.isDigitOf, hvalue, Bool.false_or, beq_iff_eq] at h
    rw [h] at hd
    revert hd
    decide
  exact ⟨hnot _ (.inl rfl), hnot _ (.inr rfl)⟩

theorem not_inRun_blank (radix : Nat) (p : Position) : inRun radix ⟨' ', p⟩ = false := by
  simp only [inRun, Text.isDigitOf, digitValue?_eq_none (.inr (.inr rfl))]
  decide

/-- The longest run of digits of a radix. -/
theorem rescans_digits {scan : Position → List SourceChar → Scan} {before : List Char}
    (radix : Nat) (text : List Char) (reason : NumberFault)
    (bad : List Char → Prop) [DecidablePred bad]
    (next : List Char → Position → List SourceChar → Scan)
    (hscan : ∀ p cs, scan p cs =
      if bad (textOf (cs.takeWhile (inRun radix))) then
        .fault (.badNumber (String.ofList (text ++ textOf (cs.takeWhile (inRun radix)))) reason) p
          (cs.dropWhile (inRun radix))
      else next (textOf (cs.takeWhile (inRun radix))) p (cs.dropWhile (inRun radix)))
    (hnext : ∀ run, Rescans (next run) (before ++ run)) : Rescans scan before :=
  rescans_run (fun c => inRun radix ⟨c, .start⟩) bad
    (fun run => .badNumber (String.ofList (text ++ run)) reason) next hscan
    (not_inRun_blank radix .start) (fun c hc => isRaw_of_inRun (c := ⟨c, .start⟩) hc) hnext

/-- A closed number is spelled as its text, like all tokens that have no quotes. -/
theorem rescans_closeNumber {kind : Kind} (hkind : kind = .integer ∨ kind = .floating)
    (text : List Char) : Rescans (fun p => closeNumber p kind text) text := by
  have hclose : ∀ p cs, Apart cs → closeNumber p kind text cs = .token kind text p cs := by
    intro p cs ha
    cases cs with
    | nil => rfl
    | cons c more =>
      have hpart : Text.isWordPart c.char = false := by
        rw [ha c rfl]
        decide
      simp [closeNumber, hpart]
  intro p cs t rest h
  have htoken : closeNumber p kind text cs = .token kind text p cs := by
    unfold closeNumber at h ⊢
    split
    · rfl
    · split
      · rename_i hpart
        simp [hpart, Scan.fault] at h
      · rfl
  cases htoken.symm.trans h
  have hspelling : Token.spelling ⟨kind, String.ofList text, p⟩ = String.ofList text := by
    rcases hkind with rfl | rfl
    · rfl
    · rfl
  refine ⟨[], rfl, by rw [hspelling, textOf_nil, List.append_nil], List.forall_mem_nil _, ?_⟩
  intro p' again rest' htext ha
  obtain rfl := eq_nil_of_textOf htext
  exact hclose p' rest' ha

theorem rescans_closeInteger (text : List Char) : Rescans (fun p => closeInteger p text) text := by
  refine rescans_optional (fun c => c = 'l' ∨ c = 'L')
    (fun c p => closeNumber p .integer (text ++ [c])) (fun p => closeNumber p .integer text)
    (fun _ _ _ => rfl) (fun _ => rfl) (by decide) ?_ ?_ (rescans_closeNumber (.inl rfl) text)
  · rintro c (rfl | rfl)
    · exact ⟨by decide, by decide⟩
    · exact ⟨by decide, by decide⟩
  · exact fun c _ => rescans_closeNumber (.inl rfl) (text ++ [c])

theorem rescans_markedNumber (radix : Nat) (text : List Char) :
    Rescans (fun p => markedNumber p radix text) text :=
  rescans_digits radix text .shape (fun run => run = [] ∨ wellSeparated run = false)
    (fun run p => closeInteger p (text ++ run)) (fun _ _ => rfl)
    fun run => rescans_closeInteger (text ++ run)

theorem rescans_closeUnmarked (floating : Bool) (whole text : List Char) :
    Rescans (fun p => closeUnmarked p floating whole text) text := by
  cases floating with
  | true => exact rescans_closeNumber (.inr rfl) text
  | false =>
    by_cases hoctal : 1 < whole.length ∧ whole.head? = some '0' ∧ ('8' ∈ whole ∨ '9' ∈ whole)
    · exact (rescans_fault _ id).congr fun p cs => by simp [closeUnmarked, hoctal]; rfl
    · exact (rescans_closeInteger text).congr fun p cs => by
        simp only [closeUnmarked, hoctal, Bool.false_eq_true, if_false]

theorem rescans_numberSuffix (floating : Bool) (whole text : List Char) :
    Rescans (fun p => numberSuffix p floating whole text) text := by
  refine rescans_optional (fun c => c ∈ ['f', 'F', 'd', 'D'])
    (fun c p => closeNumber p .floating (text ++ [c]))
    (fun p => closeUnmarked p floating whole text) (fun _ _ _ => rfl) (fun _ => rfl) (by decide) ?_ ?_
    (rescans_closeUnmarked floating whole text)
  · intro c hc
    refine ⟨?_, ?_⟩
    · rintro rfl
      exact absurd hc (by decide)
    · rintro rfl
      exact absurd hc (by decide)
  · exact fun c _ => rescans_closeNumber (.inr rfl) (text ++ [c])

/-- The digits of an exponent, then the suffix. -/
def exponentDigits (whole text : List Char) (p : Position) (digits : List SourceChar) : Scan :=
  let run := textOf (digits.takeWhile (inRun 10))
  let after := digits.dropWhile (inRun 10)
  if run = [] ∨ wellSeparated run = false then
    .fault (.badNumber (String.ofList (text ++ run)) .exponent) p after
  else numberSuffix p true whole (text ++ run) after

theorem rescans_exponentDigits (whole text : List Char) :
    Rescans (exponentDigits whole text) text :=
  rescans_digits 10 text .exponent (fun run => run = [] ∨ wellSeparated run = false)
    (fun run p => numberSuffix p true whole (text ++ run)) (fun _ _ => rfl)
    fun run => rescans_numberSuffix true whole (text ++ run)

/-- An exponent behind its letter. -/
def signedExponent (whole text : List Char) (p : Position) (cs : List SourceChar) : Scan :=
  exponentDigits whole (text ++ (exponentSign cs).1) p (exponentSign cs).2

theorem rescans_signedExponent (whole text : List Char) :
    Rescans (signedExponent whole text) text := by
  refine rescans_optional (fun c => c = '+' ∨ c = '-')
    (fun c => exponentDigits whole (text ++ [c])) (exponentDigits whole text)
    ?_ ?_ (by decide) ?_ ?_ (rescans_exponentDigits whole text)
  · intro p c more
    simp only [signedExponent, exponentSign]
    split
    · rfl
    · rw [List.append_nil]
  · intro p
    simp only [signedExponent, exponentSign, List.append_nil]
  · rintro c (rfl | rfl)
    · exact ⟨by decide, by decide⟩
    · exact ⟨by decide, by decide⟩
  · exact fun c _ => rescans_exponentDigits whole (text ++ [c])

theorem rescans_numberExponent (floating : Bool) (whole text : List Char) :
    Rescans (fun p => numberExponent p floating whole text) text := by
  refine rescans_optional (fun c => c = 'e' ∨ c = 'E')
    (fun c => signedExponent whole (text ++ [c])) (fun p => numberSuffix p floating whole text)
    (fun _ _ _ => rfl) (fun _ => rfl) (by decide) ?_ ?_ (rescans_numberSuffix floating whole text)
  · rintro c (rfl | rfl)
    · exact ⟨by decide, by decide⟩
    · exact ⟨by decide, by decide⟩
  · exact fun c _ => rescans_signedExponent whole (text ++ [c])

/-- The rest of a fraction behind its first digit, then the exponent. -/
def fractionFrom (whole : List Char) (digit : Char) (p : Position) (cs : List SourceChar) : Scan :=
  let run := digit :: textOf (cs.takeWhile (inRun 10))
  let after := cs.dropWhile (inRun 10)
  if wellSeparated run = false then
    .fault (.badNumber (String.ofList (whole ++ ['.'] ++ run)) .shape) p after
  else numberExponent p true whole (whole ++ ['.'] ++ run) after

theorem rescans_fractionFrom (whole : List Char) (digit : Char) :
    Rescans (fractionFrom whole digit) (whole ++ ['.', digit]) := by
  refine rescans_digits 10 (whole ++ ['.', digit]) .shape
    (fun run => wellSeparated (digit :: run) = false)
    (fun run p => numberExponent p true whole (whole ++ ['.', digit] ++ run)) ?_
    fun run => rescans_numberExponent true whole (whole ++ ['.', digit] ++ run)
  intro p cs
  simp only [fractionFrom, List.append_assoc, List.cons_append, List.nil_append]

theorem isRaw_of_isDigit {c : Char} (h : c.isDigit = true) : IsRaw c :=
  isRaw_of_inRun (inRun_ten_of_isDigit (c := ⟨c, .start⟩) h)

/-- A point and a digit at the front are the start of a fraction. -/
theorem numberFraction_of_isDigit (whole : List Char) (p : Position) {c d : SourceChar}
    (hc : c.char = '.') (hd : d.char.isDigit = true) (more : List SourceChar) :
    numberFraction p whole (c :: d :: more) = fractionFrom whole d.char p more := by
  have hrun := inRun_ten_of_isDigit hd
  simp only [numberFraction, fractionFrom, hc, hd, and_self, if_true, hrun,
    List.takeWhile_cons_of_pos, List.dropWhile_cons_of_pos, textOf_cons]

theorem rescans_numberFraction (whole : List Char) :
    Rescans (fun p => numberFraction p whole) whole := by
  refine rescans_pair (fun c d => c = '.' ∧ d.isDigit = true)
    (fun _ d => fractionFrom whole d) (fun p => numberExponent p false whole whole)
    ?_ (fun _ => rfl) (fun _ _ => rfl) (fun d hq => absurd hq.1 (by decide))
    (fun c hq => absurd hq.2 (by decide)) ?_ ?_ (rescans_numberExponent false whole whole)
  · intro p c d more
    split
    · rename_i hq
      exact numberFraction_of_isDigit whole p hq.1 hq.2 more
    · rename_i hq
      simp only [numberFraction, hq, if_false]
  · rintro c d ⟨rfl, hd⟩
    exact ⟨⟨by decide, by decide⟩, isRaw_of_isDigit hd⟩
  · rintro c d ⟨rfl, -⟩
    exact rescans_fractionFrom whole d

theorem rescans_plainNumber : Rescans plainNumber [] :=
  rescans_digits 10 [] .shape (fun run => run ≠ [] ∧ wellSeparated run = false)
    (fun run p => numberFraction p run) (fun _ _ => rfl) rescans_numberFraction

theorem markedRadix?_eq_some {c : Char} {radix : Nat} (h : markedRadix? c = some radix) :
    c = 'x' ∨ c = 'X' ∨ c = 'b' ∨ c = 'B' := by
  unfold markedRadix? at h
  split at h
  · rename_i hx
    exact hx.elim .inl fun hx => .inr (.inl hx)
  · split at h
    · rename_i hb
      exact .inr (.inr hb)
    · cases h

theorem rescans_number : Rescans number [] := by
  refine rescans_pair (fun c d => c = '0' ∧ (markedRadix? d).isSome = true)
    (fun c d p => markedNumber p ((markedRadix? d).getD 0) [c, d]) plainNumber
    ?_ (fun _ => rfl) (fun _ _ => rfl) (fun d hq => absurd hq.1 (by decide))
    (fun c hq => absurd hq.2 (by decide)) ?_ ?_ rescans_plainNumber
  · intro p c d more
    cases hradix : markedRadix? d.char with
    | none => simp [number, hradix]
    | some radix => simp [number, hradix]
  · rintro c d ⟨rfl, hd⟩
    obtain ⟨radix, hradix⟩ := Option.isSome_iff_exists.1 hd
    refine ⟨⟨by decide, by decide⟩, ?_⟩
    rcases markedRadix?_eq_some hradix with rfl | rfl | rfl | rfl
    · exact ⟨by decide, by decide⟩
    · exact ⟨by decide, by decide⟩
    · exact ⟨by decide, by decide⟩
    · exact ⟨by decide, by decide⟩
  · exact fun c d _ => rescans_markedNumber _ [c, d]

/-! ## The start of a number literal -/

theorem startsNumber_cases {cs : List SourceChar} (h : startsNumber cs = true) :
    (∃ c more, cs = c :: more ∧ c.char.isDigit = true) ∨
    ∃ c d more, cs = c :: d :: more ∧ c.char = '.' ∧ d.char.isDigit = true := by
  match cs with
  | [] => cases h
  | [c] =>
    have hc : c.char.isDigit = true := by simpa [startsNumber] using h
    exact .inl ⟨c, [], rfl, hc⟩
  | c :: d :: more =>
    simp only [startsNumber, List.head?_cons, Option.map_some, Option.getD_some, Bool.or_eq_true,
      Bool.and_eq_true, beq_iff_eq] at h
    exact h.imp (fun hc => ⟨c, d :: more, rfl, hc⟩) fun hc => ⟨c, d, more, rfl, hc⟩

/-- A literal that starts with a point has a digit behind it. -/
theorem number_of_point {c d : SourceChar} (hc : c.char = '.') (hd : d.char.isDigit = true)
    (p : Position) (more : List SourceChar) :
    number p (c :: d :: more) = fractionFrom [] d.char p more := by
  have hplain : number p (c :: d :: more) = plainNumber p (c :: d :: more) := by
    have hzero : c.char ≠ '0' := by
      rw [hc]
      decide
    cases hradix : markedRadix? d.char with
    | none => simp [number, hradix]
    | some radix => simp [number, hradix, hzero]
  have hpoint : inRun 10 c = false := by
    simp only [inRun, hc]
    decide
  rw [hplain, ← numberFraction_of_isDigit [] p hc hd more]
  simp [plainNumber, hpoint]

/-- Where a number was read, its characters start a number again. -/
theorem startsNumber_again {p : Position} {used rest again rest' : List SourceChar} {t : Token}
    (hstarts : startsNumber (used ++ rest) = true)
    (h : number p (used ++ rest) = ⟨.ok t, rest⟩) (htext : textOf again = textOf used) :
    startsNumber (again ++ rest') = true := by
  rcases startsNumber_cases hstarts with ⟨c, more, hcs, hc⟩ | ⟨c, d, more, hcs, hc, hd⟩
  · cases used with
    | nil =>
      have hshort := number_shorter p hstarts
      rw [h] at hshort
      exact absurd hshort (Nat.lt_irrefl _)
    | cons u used =>
      cases hcs
      obtain ⟨d, more, rfl, hd, -⟩ := exists_cons_of_textOf htext
      simp [startsNumber, hd, hc]
  · -- the digit behind the point is used up, too
    rw [hcs, number_of_point hc hd] at h
    obtain ⟨used', rfl, -⟩ := rescans_fractionFrom [] d.char _ _ _ _ h
    obtain rfl : used = c :: d :: used' := List.append_cancel_right hcs
    obtain ⟨c', more', rfl, hc', hmore⟩ := exists_cons_of_textOf htext
    obtain ⟨d', more'', rfl, hd', -⟩ := exists_cons_of_textOf hmore
    simp [startsNumber, hc', hc, hd', hd]

/-! ## A scanner finds a number or refuses it -/

/-- Numbers, and faults about numbers, at a position. -/
def Scan.IsNumeric (p : Position) (scan : Scan) : Prop :=
  (∃ kind ∈ [Kind.integer, .floating], ∃ t rest, scan = .token kind t p rest) ∨
    ∃ text reason rest, scan = .fault (.badNumber text reason) p rest

section Numeric

variable (p : Position) (floating : Bool) (whole text : List Char) (cs : List SourceChar)

theorem isNumeric_fault (text : String) (reason : NumberFault) :
    (Scan.fault (.badNumber text reason) p cs).IsNumeric p := .inr ⟨text, reason, cs, rfl⟩

theorem isNumeric_closeNumber {kind : Kind} (h : kind ∈ [Kind.integer, .floating]) :
    (closeNumber p kind text cs).IsNumeric p := by
  unfold closeNumber
  split
  · exact .inl ⟨kind, h, text, [], rfl⟩
  · split
    · exact isNumeric_fault p _ _ _
    · exact .inl ⟨kind, h, text, _, rfl⟩

theorem isNumeric_closeInteger : (closeInteger p text cs).IsNumeric p := by
  unfold closeInteger
  split
  · split
    · exact isNumeric_closeNumber p _ _ (by decide)
    · exact isNumeric_closeNumber p _ _ (by decide)
  · exact isNumeric_closeNumber p _ _ (by decide)

theorem isNumeric_closeUnmarked : (closeUnmarked p floating whole text cs).IsNumeric p := by
  unfold closeUnmarked
  split
  · exact isNumeric_closeNumber p _ _ (by decide)
  · split
    · exact isNumeric_fault p _ _ _
    · exact isNumeric_closeInteger p _ _

theorem isNumeric_numberSuffix : (numberSuffix p floating whole text cs).IsNumeric p := by
  unfold numberSuffix
  split
  · split
    · exact isNumeric_closeNumber p _ _ (by decide)
    · exact isNumeric_closeUnmarked p _ _ _ _
  · exact isNumeric_closeUnmarked p _ _ _ _

theorem isNumeric_numberExponent : (numberExponent p floating whole text cs).IsNumeric p := by
  unfold numberExponent
  split
  · split
    · dsimp only
      split
      · exact isNumeric_fault p _ _ _
      · exact isNumeric_numberSuffix p _ _ _ _
    · exact isNumeric_numberSuffix p _ _ _ _
  · exact isNumeric_numberSuffix p _ _ _ _

theorem isNumeric_numberFraction : (numberFraction p whole cs).IsNumeric p := by
  unfold numberFraction
  split
  · split
    · dsimp only
      split
      · exact isNumeric_fault p _ _ _
      · exact isNumeric_numberExponent p _ _ _ _
    · exact isNumeric_numberExponent p _ _ _ _
  · exact isNumeric_numberExponent p _ _ _ _

theorem isNumeric_plainNumber : (plainNumber p cs).IsNumeric p := by
  unfold plainNumber
  dsimp only
  split
  · exact isNumeric_fault p _ _ _
  · exact isNumeric_numberFraction p _ _

theorem isNumeric_markedNumber (radix : Nat) : (markedNumber p radix text cs).IsNumeric p := by
  unfold markedNumber
  dsimp only
  split
  · exact isNumeric_fault p _ _ _
  · exact isNumeric_closeInteger p _ _

theorem isNumeric_number : (number p cs).IsNumeric p := by
  unfold number
  split
  · split
    · split
      · exact isNumeric_markedNumber p _ _ _
      · exact isNumeric_plainNumber p _
    · exact isNumeric_plainNumber p _
  · exact isNumeric_plainNumber p _

end Numeric

end Javelet.Lexeme

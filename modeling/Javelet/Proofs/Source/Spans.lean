import Javelet.Proofs.Source.Verbatim
import Mathlib.Algebra.Group.Nat.Even
import Mathlib.Algebra.GroupWithZero.Nat
import Mathlib.Data.List.DropRight

/-!
# Spans of decoded characters

Each decoded character stands for a span of the raw text: one character, a carriage return with its
line feed, or a unicode escape. What the spans are and where they stand is told by the raw text
alone: whether a backslash starts an escape by the backslashes in front of it, a position by the
text in front of it, and the end of the decoding by the first place that cannot be decoded. The
theorem at the end says that decoding finds these spans, positions and places.
-/
namespace Javelet

/-- On an earlier line, or on the same line further left. -/
def Position.Before (p q : Position) : Prop :=
  p.line < q.line ∨ p.line = q.line ∧ p.column < q.column

theorem Position.Before.trans {p q r : Position} (h : p.Before q) (h' : q.Before r) :
    p.Before r := by
  unfold Before at *
  omega

namespace Source

/-! ## What a raw text says -/

/-- A unicode escape and the character it names: a backslash, one or more `u`, and four hexadecimal
digits of a scalar value. -/
inductive Escape : List Char → Char → Prop
  | mk {marks : Nat} {digits : List Char} : digits.length = 4 →
      (∀ d ∈ digits, Text.isDigitOf 16 d = true) → (Text.digitsValue 16 digits).isValidChar →
      Escape ('\\' :: 'u' :: (List.replicate marks 'u' ++ digits))
        (Char.ofNat (Text.digitsValue 16 digits))

/-- The raw text of one decoded character. -/
inductive Span : List Char → Char → Prop
  | char {c : Char} : c ≠ '\r' → Span [c] c
  | lineEnd : Span ['\r', '\n'] '\n'
  | escape {span : List Char} {c : Char} : Escape span c → Span span c

/-- The number of backslashes right at the end of a text. -/
def backslashes (before : List Char) : Nat := (before.rtakeWhile (· == '\\')).length

/-- Between the texts `before` and `after` an escape has to start: there is a backslash with a `u`
behind it and an even number of backslashes in front of it. -/
structure StartsEscape (before after : List Char) : Prop where
  mark : ∃ rest, after = '\\' :: 'u' :: rest
  even : Even (backslashes before)

/-- The text cannot be decoded behind `before`: an escape that has to start there is none, or a
carriage return stands there without a line feed. -/
inductive Fails (before : List Char) : List Char → Lexeme.Fault → Prop
  | escape {after : List Char} : StartsEscape before after →
      (¬ ∃ span c, Escape span c ∧ span <+: after) → Fails before after .badUnicodeEscape
  | lineEnd {rest : List Char} : rest.head? ≠ some '\n' →
      Fails before ('\r' :: rest) .loneCarriageReturn

/-- The first place of a text that cannot be decoded. -/
structure FirstFailure (raw before after : List Char) (f : Lexeme.Fault) : Prop where
  raw_eq : raw = before ++ after
  fails : Fails before after f
  first : ∀ before' after' f', raw = before' ++ after' → Fails before' after' f' →
    before.length ≤ before'.length

/-- The columns that a text takes on its line. -/
def columns (cs : List Char) : Nat := (cs.map fun c => if c = '\t' then tabWidth else 1).sum

/-- The place behind a text: lines are counted by the line feeds in it, columns by the characters
behind the last one. -/
def placeBehind (before : List Char) : Position :=
  ⟨1 + before.count '\n', columns (before.rtakeWhile (· != '\n'))⟩

/-! ## Backslashes -/

theorem backslashes_nil : backslashes [] = 0 := rfl

theorem backslashes_concat_slash (before : List Char) :
    backslashes (before ++ ['\\']) = backslashes before + 1 := by
  rw [backslashes, List.rtakeWhile_concat_pos _ _ _ (by decide), List.length_append]
  rfl

theorem backslashes_concat {c : Char} (h : c ≠ '\\') (before : List Char) :
    backslashes (before ++ [c]) = 0 := by
  rw [backslashes, List.rtakeWhile_concat_neg _ _ _ (by simpa using h)]
  rfl

/-! ## Places -/

theorem placeBehind_concat (before : List Char) (c : Char) :
    placeBehind (before ++ [c]) =
      if c = '\n' then (placeBehind before).nextLine
      else (placeBehind before).right (if c = '\t' then tabWidth else 1) := by
  by_cases hline : c = '\n'
  · subst hline
    rw [if_pos rfl, placeBehind, List.rtakeWhile_concat_neg _ _ _ (by decide)]
    simp [placeBehind, Position.nextLine, columns, Nat.add_assoc]
  · rw [if_neg hline, placeBehind, List.rtakeWhile_concat_pos _ _ _ (by simpa using hline)]
    simp [placeBehind, Position.right, columns, hline]

/-- Behind characters that are all one column wide. -/
theorem placeBehind_append {cs : List Char} (h : ∀ c ∈ cs, c ≠ '\n' ∧ c ≠ '\t')
    (before : List Char) : placeBehind (before ++ cs) = (placeBehind before).right cs.length := by
  induction cs generalizing before with
  | nil => simp [Position.right]
  | cons c cs ih =>
    rw [List.forall_mem_cons] at h
    rw [List.append_cons, ih h.2, placeBehind_concat, if_neg h.1.1, if_neg h.1.2]
    simp only [Position.right, List.length_cons, Position.mk.injEq, true_and]
    omega

/-- More text ends further behind. -/
theorem placeBehind_before {cs : List Char} (h : cs ≠ []) (before : List Char) :
    (placeBehind before).Before (placeBehind (before ++ cs)) := by
  have hone : ∀ before c, (placeBehind before).Before (placeBehind (before ++ [c])) := by
    intro before c
    rw [placeBehind_concat]
    split
    · exact .inl (Nat.lt_succ_self _)
    · refine .inr ⟨rfl, Nat.lt_add_of_pos_right ?_⟩
      split
      · decide
      · decide
  induction cs generalizing before with
  | nil => exact absurd rfl h
  | cons c cs ih =>
    rw [List.append_cons]
    by_cases hcs : cs = []
    · rw [hcs, List.append_nil]
      exact hone before c
    · exact (hone before c).trans (ih hcs _)

/-! ## Escapes and spans -/

theorem hexDigit_plain {d : Char} (h : Text.isDigitOf 16 d = true) :
    d ≠ '\\' ∧ d ≠ '\r' ∧ d ≠ '\n' ∧ d ≠ '\t' ∧ d ≠ 'u' := by
  refine ⟨?_, ?_, ?_, ?_, ?_⟩
  all_goals
    rintro rfl
    exact absurd h (by decide)

/-- Behind its backslash an escape has marks and digits only. -/
theorem Escape.tail_plain {span : List Char} {c : Char} (h : Escape span c) :
    ∃ tail, span = '\\' :: 'u' :: tail ∧ tail ≠ [] ∧
      ∀ d ∈ 'u' :: tail, d ≠ '\\' ∧ d ≠ '\r' ∧ d ≠ '\n' ∧ d ≠ '\t' := by
  obtain ⟨hlength, hdigits, -⟩ := h
  refine ⟨_, rfl, ?_, ?_⟩
  · intro hnil
    rw [(List.append_eq_nil_iff.1 hnil).2] at hlength
    cases hlength
  · intro d hd
    rw [List.mem_cons, List.mem_append] at hd
    rcases hd with rfl | hd | hd
    · decide
    · rw [List.eq_of_mem_replicate hd]
      decide
    · obtain ⟨h₁, h₂, h₃, h₄, -⟩ := hexDigit_plain (hdigits d hd)
      exact ⟨h₁, h₂, h₃, h₄⟩

theorem Span.ne_nil {span : List Char} {c : Char} (h : Span span c) : span ≠ [] := by
  cases h with
  | char => exact List.cons_ne_nil _ _
  | lineEnd => exact List.cons_ne_nil _ _
  | escape h =>
    obtain ⟨tail, rfl, -⟩ := h.tail_plain
    exact List.cons_ne_nil _ _

/-- No span ends with a backslash but that of a backslash. -/
theorem Span.exists_concat {span : List Char} {c : Char} (h : Span span c) (hne : span ≠ ['\\']) :
    ∃ front d, span = front ++ [d] ∧ d ≠ '\\' := by
  cases h with
  | char =>
    refine ⟨[], c, rfl, ?_⟩
    rintro rfl
    exact hne rfl
  | lineEnd => exact ⟨['\r'], '\n', rfl, by decide⟩
  | escape h =>
    obtain ⟨tail, rfl, htail, hplain⟩ := h.tail_plain
    refine ⟨'\\' :: 'u' :: tail.dropLast, tail.getLast htail, ?_, ?_⟩
    · rw [List.cons_append, List.cons_append, List.dropLast_append_getLast htail]
    · exact (hplain _ (List.mem_cons_of_mem _ (List.getLast_mem htail))).1

/-- Backslashes and carriage returns stand at the start of a span only. -/
theorem Span.plain_of_append {front after : List Char} {c d : Char}
    (h : Span (front ++ d :: after) c) (hfront : front ≠ []) : d ≠ '\\' ∧ d ≠ '\r' := by
  obtain ⟨x, front, rfl⟩ := List.exists_cons_of_ne_nil hfront
  rw [List.cons_append] at h
  generalize hspan : x :: (front ++ d :: after) = span at h
  have htail : d ∈ span.tail := by simp [← hspan]
  cases h with
  | char => cases htail
  | lineEnd =>
    rw [List.mem_singleton.1 htail]
    decide
  | escape h =>
    obtain ⟨tail, rfl, -, hplain⟩ := h.tail_plain
    exact ⟨(hplain d htail).1, (hplain d htail).2.1⟩

theorem Span.not_fails {span after before : List Char} {c : Char} (h : Span span c)
    (hescape : StartsEscape before (span ++ after) → ∃ c, Escape span c) (f : Lexeme.Fault) :
    ¬ Fails before (span ++ after) f := by
  intro hfails
  generalize hraw : span ++ after = raw at hfails
  cases hfails with
  | escape hstarts hnone =>
    rw [← hraw] at hstarts hnone
    obtain ⟨c', hc'⟩ := hescape hstarts
    exact hnone ⟨span, c', hc', List.prefix_append ..⟩
  | lineEnd hhead =>
    cases h with
    | char hc => exact hc (List.cons.inj hraw).1
    | lineEnd =>
      rw [← (List.cons.inj hraw).2] at hhead
      exact hhead rfl
    | escape h =>
      obtain ⟨tail, rfl, -⟩ := h.tail_plain
      cases hraw

theorem Fails.ne_nil {before after : List Char} {f : Lexeme.Fault} (h : Fails before after f) :
    after ≠ [] := by
  cases h with
  | escape hstarts _ =>
    obtain ⟨rest, rfl⟩ := hstarts.mark
    exact List.cons_ne_nil _ _
  | lineEnd => exact List.cons_ne_nil _ _

/-- A place fails in one way. -/
theorem Fails.unique {before after : List Char} {f f' : Lexeme.Fault} (h : Fails before after f)
    (h' : Fails before after f') : f = f' := by
  cases h with
  | escape hstarts _ =>
    obtain ⟨rest, rfl⟩ := hstarts.mark
    cases h' with
    | escape => rfl
  | lineEnd =>
    cases h' with
    | escape hstarts _ =>
      obtain ⟨rest, hrest⟩ := hstarts.mark
      cases hrest
    | lineEnd => rfl

/-! ## Reading the front of a raw text -/

theorem escape_of_unicodeEscape? {cs rest : List Char} {c : Char} {width : Nat}
    (h : unicodeEscape? ('u' :: cs) = some (c, width, rest)) :
    ∃ span, Escape span c ∧ '\\' :: 'u' :: cs = span ++ rest ∧ span.length = width := by
  have hmarks : cs.takeWhile (· == 'u') = List.replicate (cs.takeWhile (· == 'u')).length 'u' :=
    List.eq_replicate_of_mem fun d hd => by simpa using List.mem_takeWhile_imp hd
  have hsplit := List.takeWhile_append_dropWhile (p := (· == 'u')) (l := cs)
  simp only [unicodeEscape?, List.dropWhile_cons, List.takeWhile_cons, BEq.rfl, if_true] at h
  split at h
  · rename_i d₁ d₂ d₃ d₄ more hdrop
    split at h
    · rename_i value hvalue
      split at h
      · rename_i hvalid
        simp only [Option.some.injEq, Prod.mk.injEq] at h
        obtain ⟨rfl, rfl, rfl⟩ := h
        simp only [Text.readDigits?, Option.ite_none_right_eq_some, List.all_eq_true] at hvalue
        obtain ⟨⟨-, hdigits⟩, hvalue⟩ := hvalue
        cases hvalue
        have hescape : Escape ('\\' :: 'u' :: (List.replicate (cs.takeWhile (· == 'u')).length 'u' ++
            [d₁, d₂, d₃, d₄])) _ := .mk rfl hdigits hvalid
        refine ⟨_, hescape, ?_, ?_⟩
        · rw [← hmarks, List.cons_append, List.cons_append, List.append_assoc]
          rw [hdrop] at hsplit
          exact congrArg (fun l => '\\' :: 'u' :: l) hsplit.symm
        · simp
      · cases h
    · cases h
  · cases h

theorem Escape.isSome_unicodeEscape? {span cs after : List Char} {c : Char} (h : Escape span c)
    (hraw : '\\' :: cs = span ++ after) : (unicodeEscape? cs).isSome = true := by
  obtain ⟨hlength, hdigits, hvalid⟩ := h
  rename_i marks digits
  obtain ⟨d₁, d₂, d₃, d₄, rfl⟩ : ∃ d₁ d₂ d₃ d₄, digits = [d₁, d₂, d₃, d₄] := by
    match digits, hlength with
    | [d₁, d₂, d₃, d₄], _ => exact ⟨d₁, d₂, d₃, d₄, rfl⟩
  have hcs : cs = List.replicate (marks + 1) 'u' ++ (d₁ :: d₂ :: d₃ :: d₄ :: after) := by
    simpa [List.replicate_succ] using hraw
  have hmark : (d₁ == 'u') = false := by
    simpa using (hexDigit_plain (hdigits d₁ (List.mem_cons_self ..))).2.2.2.2
  have hdrop : cs.dropWhile (· == 'u') = d₁ :: d₂ :: d₃ :: d₄ :: after := by
    rw [hcs, List.dropWhile_append_of_pos, List.dropWhile_cons_of_neg]
    · simp [hmark]
    · intro d hd
      simpa using List.eq_of_mem_replicate hd
  have hread : Text.readDigits? 16 [d₁, d₂, d₃, d₄] =
      some (Text.digitsValue 16 [d₁, d₂, d₃, d₄]) := by
    simpa only [Text.readDigits?, List.all_eq_true] using if_pos ⟨List.cons_ne_nil _ _, hdigits⟩
  rw [unicodeEscape?, hdrop]
  simp only [hread, if_pos hvalid, Option.isSome_some]

/-- What a reader knows behind the text `before`. -/
structure Behind (before : List Char) (p : Position) (odd : Bool) : Prop where
  position : p = placeBehind before
  parity : odd = false ↔ Even (backslashes before)

theorem Behind.start : Behind [] .start false := ⟨rfl, by simp [backslashes_nil]⟩

/-- Behind one more character. -/
theorem Behind.concat {before : List Char} {p : Position} {odd odd' : Bool} (h : Behind before p odd)
    (c : Char) (hodd : odd' = (c == '\\' && !odd)) :
    Behind (before ++ [c])
      (if c = '\n' then p.nextLine else p.right (if c = '\t' then tabWidth else 1)) odd' := by
  refine ⟨?_, ?_⟩
  · rw [placeBehind_concat, h.position]
  · by_cases hslash : c = '\\'
    · subst hslash
      rw [backslashes_concat_slash, Nat.even_add_one, ← h.parity, hodd]
      simp
    · rw [backslashes_concat hslash, hodd, beq_eq_false_iff_ne.2 hslash]
      simp

/-- Behind an escape. -/
theorem Behind.escape {before span : List Char} {p : Position} {odd : Bool} {c : Char}
    (h : Behind before p odd) (hspan : Escape span c) :
    Behind (before ++ span) (p.right span.length) false := by
  obtain ⟨tail, rfl, hne, hplain⟩ := hspan.tail_plain
  refine ⟨?_, ?_⟩
  · rw [placeBehind_append, h.position]
    rw [List.forall_mem_cons]
    exact ⟨by decide, fun d hd => (hplain d hd).2.2⟩
  · obtain ⟨front, d, hconcat, hd⟩ := (Span.escape hspan).exists_concat (by simp)
    rw [hconcat, ← List.append_assoc, backslashes_concat hd]
    simp

/-- Whether an escape has to start is told by what the reader knows. -/
theorem Behind.startsEscape_iff {before rest : List Char} {p : Position} {odd : Bool} {c : Char}
    (h : Behind before p odd) :
    StartsEscape before (c :: rest) ↔ c = '\\' ∧ odd = false ∧ rest.head? = some 'u' := by
  rw [h.parity]
  constructor
  · rintro ⟨⟨more, hmark⟩, heven⟩
    cases hmark
    exact ⟨rfl, heven, rfl⟩
  · rintro ⟨rfl, heven, hhead⟩
    obtain ⟨more, rfl⟩ := List.head?_eq_some_iff.1 hhead
    exact ⟨⟨more, rfl⟩, heven⟩

theorem not_escape_of_length {span : List Char} (h : span.length < 3) : ¬ ∃ c, Escape span c := by
  rintro ⟨c, hc⟩
  obtain ⟨tail, rfl, hne, -⟩ := hc.tail_plain
  have := List.length_pos_of_ne_nil hne
  simp only [List.length_cons] at h
  omega

/-- The front of a raw text as it is told by the text. -/
inductive Told (before cs : List Char) : Front → Prop
  | finish : cs = [] → Told before cs .finish
  | char {span rest : List Char} {c : Char} {after : Position} {odd : Bool} : cs = span ++ rest →
      Span span c → (StartsEscape before cs ↔ ∃ c, Escape span c) →
      Behind (before ++ span) after odd → Told before cs (.char c after odd rest)
  | fault {f : Lexeme.Fault} : Fails before cs f → Told before cs (.fault f)

theorem front_told {before : List Char} {p : Position} {odd : Bool} (h : Behind before p odd)
    (cs : List Char) : Told before cs (front p odd cs) := by
  have hsingle : ∀ {c rest}, c ≠ '\r' → ¬ StartsEscape before (c :: rest) → ∀ {after odd'},
      Behind (before ++ [c]) after odd' → Told before (c :: rest) (.char c after odd' rest) :=
    fun {c rest} hc hnot _ _ hbehind => .char (show c :: rest = [c] ++ rest from rfl) (.char hc)
      (iff_of_false hnot (not_escape_of_length (by simp))) hbehind
  cases cs with
  | nil => exact .finish rfl
  | cons c rest =>
    rw [front]
    split
    · rename_i hslash
      subst hslash
      split
      · rename_i hstarts
        obtain ⟨hodd, hhead⟩ := hstarts
        obtain ⟨more, rfl⟩ := List.head?_eq_some_iff.1 hhead
        have hstarts := h.startsEscape_iff.2 ⟨rfl, hodd, hhead⟩
        split
        · rename_i decoded width rest hread
          obtain ⟨span, hspan, hraw, rfl⟩ := escape_of_unicodeEscape? hread
          exact .char hraw (.escape hspan) (iff_of_true hstarts ⟨_, hspan⟩) (h.escape hspan)
        · rename_i hread
          refine .fault (.escape hstarts ?_)
          rintro ⟨span, d, hspan, after, hraw⟩
          have hsome := hspan.isSome_unicodeEscape? hraw.symm
          rw [hread] at hsome
          cases hsome
      · rename_i hnot
        refine hsingle (by decide) (fun hs => hnot (h.startsEscape_iff.1 hs).2) ?_
        exact h.concat '\\' (by simp)
    · rename_i hslash
      have hnot : ¬ StartsEscape before (c :: rest) :=
        fun hs => hslash (h.startsEscape_iff.1 hs).1
      have hodd : false = (c == '\\' && !odd) := by simp [hslash]
      split
      · rename_i hreturn
        subst hreturn
        split
        · rename_i hfeed
          obtain ⟨more, rfl⟩ := List.head?_eq_some_iff.1 hfeed
          refine .char (show '\r' :: '\n' :: more = ['\r', '\n'] ++ more from rfl) .lineEnd
            (iff_of_false hnot (not_escape_of_length (by simp))) ?_
          rw [show before ++ ['\r', '\n'] = before ++ ['\r'] ++ ['\n'] by simp]
          exact (h.concat '\r' hodd).concat '\n' rfl
        · rename_i hfeed
          exact .fault (.lineEnd hfeed)
      · rename_i hreturn
        have hconcat := h.concat c hodd
        split
        · rename_i hline
          subst hline
          exact hsingle hreturn hnot hconcat
        · rename_i hline
          rw [if_neg hline] at hconcat
          split
          · rename_i htab
            subst htab
            exact hsingle hreturn hnot hconcat
          · rename_i htab
            rw [if_neg htab] at hconcat
            exact hsingle hreturn hnot hconcat

/-! ## Walking along a raw text -/

/-- The spans behind the text `before`, with the characters they stand for, up to the end of the text
or to the place that fails. -/
inductive Walk : List Char → List (List Char) → List Char → List SourceChar →
    Option (Located Lexeme.Fault) → Prop
  | finish {before : List Char} : Walk before [] [] [] none
  | fault {before rest : List Char} {f : Lexeme.Fault} : Fails before rest f →
      Walk before [] rest [] (some ⟨f, placeBehind before⟩)
  | span {before span rest : List Char} {spans : List (List Char)} {c : Char}
      {chars : List SourceChar} {fault : Option (Located Lexeme.Fault)} : Span span c →
      (StartsEscape before (span ++ (spans.flatten ++ rest)) ↔ ∃ c, Escape span c) →
      Walk (before ++ span) spans rest chars fault →
      Walk before (span :: spans) rest (⟨c, placeBehind before⟩ :: chars) fault

/-- Decoding walks along the raw text. -/
theorem exists_walk (done : List SourceChar) {before : List Char} {p : Position} {odd : Bool}
    (cs : List Char) (h : Behind before p odd) :
    ∃ spans rest chars fault, cs = spans.flatten ++ rest ∧ Walk before spans rest chars fault ∧
      decodeFrom done p odd cs =
        ⟨done.reverse ++ chars, placeBehind (before ++ spans.flatten), fault⟩ := by
  fun_induction decodeFrom done p odd cs generalizing before with
  | case1 done p odd cs hfront =>
    have htold := front_told h cs
    rw [hfront] at htold
    obtain ⟨rfl⟩ := htold
    exact ⟨[], [], [], none, rfl, .finish, by simp [h.position]⟩
  | case2 done p odd cs f hfront =>
    have htold := front_told h cs
    rw [hfront] at htold
    obtain ⟨⟩ | ⟨⟩ | hfails := htold
    exact ⟨[], cs, [], _, rfl, .fault hfails, by simp [h.position]⟩
  | case3 done p odd cs c after odd' rest hfront ih =>
    have htold := front_told h cs
    rw [hfront] at htold
    cases htold with
    | char hraw hspan hescape hbehind =>
      rename_i span
      obtain ⟨spans, rest', chars, fault, rfl, hwalk, hdecode⟩ := ih hbehind
      rw [hraw] at hescape
      refine ⟨span :: spans, rest', ⟨c, placeBehind before⟩ :: chars, fault, ?_,
        .span hspan hescape hwalk, ?_⟩
      · rw [hraw, List.flatten_cons, List.append_assoc]
      · rw [hdecode, h.position]
        simp

section Walks

variable {before rest : List Char} {spans : List (List Char)} {chars : List SourceChar}
  {fault : Option (Located Lexeme.Fault)}

theorem Walk.forall₂_span (h : Walk before spans rest chars fault) :
    List.Forall₂ Span spans (chars.map SourceChar.char) := by
  induction h with
  | finish => exact .nil
  | fault _ => exact .nil
  | span hspan _ _ ih => exact .cons hspan ih

theorem Walk.position (h : Walk before spans rest chars fault) {k : Nat} {c : SourceChar}
    (hc : chars[k]? = some c) : c.position = placeBehind (before ++ (spans.take k).flatten) := by
  induction h generalizing k with
  | finish => cases hc
  | fault _ => cases hc
  | span _ _ _ ih =>
    cases k with
    | zero =>
      cases hc
      simp
    | succ k =>
      rw [List.getElem?_cons_succ] at hc
      rw [ih hc, List.take_succ_cons, List.flatten_cons, List.append_assoc]

/-- Characters stand in front of those behind them. -/
theorem Walk.increasing (h : Walk before spans rest chars fault) :
    (chars.Pairwise fun c d => c.position.Before d.position) ∧
      ∀ c ∈ chars, c.position = placeBehind before ∨
        (placeBehind before).Before c.position := by
  induction h with
  | finish => exact ⟨.nil, nofun⟩
  | fault _ => exact ⟨.nil, nofun⟩
  | span hspan _ _ ih =>
    rename_i before _ _ _ _ chars _ _ _
    have hbefore := placeBehind_before hspan.ne_nil before
    have hlater : ∀ c ∈ chars, (placeBehind before).Before c.position := by
      intro c hc
      rcases ih.2 c hc with heq | hlt
      · rw [heq]
        exact hbefore
      · exact hbefore.trans hlt
    refine ⟨.cons hlater ih.1, List.forall_mem_cons.2 ⟨.inl rfl, ?_⟩⟩
    exact fun c hc => .inr (hlater c hc)

/-- A place in front of the end of a walk is in front of a span, or inside of one. -/
theorem place_cases {span place after tail : List Char} (h : span ++ tail = place ++ after) :
    place = [] ∨ (∃ d front, place ≠ [] ∧ span = place ++ d :: front ∧ after = d :: front ++ tail) ∨
      ∃ place', place = span ++ place' ∧ tail = place' ++ after := by
  rcases List.append_eq_append_iff.1 h with ⟨place', hplace, htail⟩ | ⟨front, hspan, hafter⟩
  · exact .inr (.inr ⟨place', hplace, htail⟩)
  · by_cases hplace : place = []
    · exact .inl hplace
    · cases front with
      | nil => exact .inr (.inr ⟨[], by simpa using hspan.symm, hafter.symm⟩)
      | cons d front => exact .inr (.inl ⟨d, front, hplace, hspan, hafter⟩)

/-- No place in front of the end of a walk fails. -/
theorem Walk.not_fails (h : Walk before spans rest chars fault) {place after : List Char}
    (hraw : spans.flatten ++ rest = place ++ after) (hlt : place.length < spans.flatten.length)
    (f : Lexeme.Fault) : ¬ Fails (before ++ place) after f := by
  induction h generalizing place with
  | finish => cases hlt
  | fault _ => cases hlt
  | span hspan hescape _ ih =>
    rw [List.flatten_cons, List.append_assoc] at hraw
    rcases place_cases hraw with rfl | ⟨d, front, hne, rfl, rfl⟩ | ⟨place, rfl, htail⟩
    · rw [List.append_nil, ← List.nil_append after, ← hraw]
      exact hspan.not_fails hescape.1 f
    · obtain ⟨hslash, hreturn⟩ := hspan.plain_of_append hne
      rintro (⟨⟨⟨more, hmark⟩, -⟩, -⟩ | -)
      · exact hslash (List.cons.inj hmark).1
      · exact hreturn rfl
    · rw [← List.append_assoc]
      refine ih htail ?_
      simpa using hlt

/-- A backslash starts an escape if it has to, and only then. -/
theorem Walk.escape_iff (h : Walk before spans rest chars fault) {place after : List Char}
    (hraw : spans.flatten ++ rest = place ++ '\\' :: after)
    (hlt : place.length < spans.flatten.length) :
    (∃ earlier span later c, spans = earlier ++ span :: later ∧ earlier.flatten = place ∧
      Escape span c) ↔ StartsEscape (before ++ place) ('\\' :: after) := by
  induction h generalizing place with
  | finish => cases hlt
  | fault _ => cases hlt
  | span hspan hescape hwalk ih =>
    rename_i before span rest spans _ _ _
    rw [List.flatten_cons, List.append_assoc] at hraw
    rcases place_cases hraw with rfl | ⟨d, front, hne, rfl, hafter⟩ | ⟨place, rfl, htail⟩
    · rw [List.append_nil, ← List.nil_append ('\\' :: after), ← hraw, hescape]
      constructor
      · rintro ⟨earlier, span', later, c, heq, hplace, hc⟩
        cases earlier with
        | nil =>
          cases heq
          exact ⟨c, hc⟩
        | cons first earlier =>
          cases heq
          exact absurd (List.append_eq_nil_iff.1 hplace).1 hspan.ne_nil
      · rintro ⟨c, hc⟩
        exact ⟨[], span, spans, c, rfl, rfl, hc⟩
    · exact absurd (List.cons.inj hafter).1.symm (hspan.plain_of_append hne).1
    · have hih := ih htail (by simpa using hlt)
      rw [← List.append_assoc, ← hih]
      constructor
      · rintro ⟨earlier, span', later, c, heq, hplace, hc⟩
        cases earlier with
        | nil => exact absurd (List.append_eq_nil_iff.1 hplace.symm).1 hspan.ne_nil
        | cons first earlier =>
          cases heq
          exact ⟨earlier, span', later, c, rfl, List.append_cancel_left hplace, hc⟩
      · rintro ⟨earlier, span', later, c, rfl, rfl, hc⟩
        exact ⟨span :: earlier, span', later, c, rfl, rfl, hc⟩

/-- A walk ends at the end of the text, or at a place that fails. -/
theorem Walk.fault_cases (h : Walk before spans rest chars fault) :
    (fault = none ∧ rest = []) ∨
      ∃ f, fault = some ⟨f, placeBehind (before ++ spans.flatten)⟩ ∧
        Fails (before ++ spans.flatten) rest f := by
  induction h with
  | finish => exact .inl ⟨rfl, rfl⟩
  | fault hfails => exact .inr ⟨_, by rw [List.flatten_nil, List.append_nil],
      by rwa [List.flatten_nil, List.append_nil]⟩
  | span _ _ _ ih => simpa using ih

end Walks

/-! ## Runs of backslashes -/

theorem exists_span_of_mem {spans : List (List Char)} {cs span : List Char}
    (h : List.Forall₂ Span spans cs) (hmem : span ∈ spans) : ∃ c, Span span c := by
  induction h with
  | nil => cases hmem
  | cons hspan _ ih =>
    rcases List.mem_cons.1 hmem with rfl | hmem
    · exact ⟨_, hspan⟩
    · exact ih hmem

/-- The backslashes right at the end of a decoded text are those that stand for themselves. -/
theorem backslashes_flatten {spans : List (List Char)} (h : ∀ span ∈ spans, ∃ c, Span span c) :
    backslashes spans.flatten = (spans.rtakeWhile (· == ['\\'])).length := by
  induction spans using List.reverseRecOn with
  | nil => rfl
  | append_singleton spans span ih =>
    rw [List.forall_mem_append, List.forall_mem_singleton] at h
    obtain ⟨hspans, c, hspan⟩ := h
    rw [List.flatten_append, List.flatten_singleton]
    by_cases hslash : span = ['\\']
    · rw [hslash, backslashes_concat_slash, ih hspans,
        List.rtakeWhile_concat_pos _ _ _ (by simp), List.length_append]
      rfl
    · obtain ⟨front, d, rfl, hd⟩ := hspan.exists_concat hslash
      rw [← List.append_assoc, backslashes_concat hd,
        List.rtakeWhile_concat_neg _ _ _ (by simpa using hslash)]
      rfl

/-! ## Decoding -/

/-- How a raw text is decoded: in which spans, with which characters and which rest. -/
structure Decodes (raw : List Char) (spans : List (List Char)) (rest : List Char) (d : Decoded) :
    Prop where
  /-- The spans of the characters follow each other without a gap. -/
  raw_eq : raw = spans.flatten ++ rest
  /-- Each character stands for its span. -/
  chars : List.Forall₂ Span spans (d.chars.map SourceChar.char)
  /-- A backslash in the decoded text starts an escape if it has to, and only then. -/
  escapes : ∀ before after, raw = before ++ '\\' :: after → before.length < spans.flatten.length →
    ((∃ earlier span later c, spans = earlier ++ span :: later ∧ earlier.flatten = before ∧
      Escape span c) ↔ StartsEscape before ('\\' :: after))
  /-- The backslashes in front of a span that count are spans of their own, not parts of escapes. -/
  backslashes : ∀ k, Source.backslashes (spans.take k).flatten =
    ((spans.take k).rtakeWhile (· == ['\\'])).length
  /-- A character stands where its span starts. -/
  positions : ∀ k c, d.chars[k]? = some c → c.position = placeBehind (spans.take k).flatten
  increasing : d.chars.Pairwise fun c c' => c.position.Before c'.position
  finish : d.finish = placeBehind spans.flatten
  /-- Without a fault the whole text is decoded. -/
  complete : d.fault = none → rest = []
  /-- A fault ends the decoding at the first place that fails. -/
  stops : ∀ l, d.fault = some l → FirstFailure raw spans.flatten rest l.fault
  /-- There is a fault exactly if a place fails. -/
  fails : ∀ l, d.fault = some l ↔
    ∃ before after, FirstFailure raw before after l.fault ∧ l.position = placeBehind before

/-- Every raw text is decoded losslessly, span by span, up to the first place that fails. -/
theorem exists_decodes (source : String) :
    ∃ spans rest, Decodes source.toList spans rest (decode source) := by
  obtain ⟨spans, rest, chars, fault, hraw, hwalk, hdecode⟩ := exists_walk [] source.toList .start
  have hfirst : ∀ {before after f}, source.toList = before ++ after → Fails before after f →
      spans.flatten.length ≤ before.length := by
    intro before after f heq hfails
    by_contra hlt
    exact hwalk.not_fails (hraw.symm.trans heq) (Nat.lt_of_not_le hlt) f hfails
  have hstops : ∀ l, fault = some l → FirstFailure source.toList spans.flatten rest l.fault ∧
      l.position = placeBehind spans.flatten := by
    intro l hl
    rcases hwalk.fault_cases with ⟨hnone, -⟩ | ⟨f, hsome, hfails⟩
    · rw [hnone] at hl
      cases hl
    · cases hsome.symm.trans hl
      exact ⟨⟨hraw, hfails, fun _ _ _ heq h => hfirst heq h⟩, rfl⟩
  refine ⟨spans, rest, ?_⟩
  rw [decode, hdecode]
  refine ⟨hraw, hwalk.forall₂_span, ?_, ?_, fun k c hc => hwalk.position hc, hwalk.increasing.1, rfl,
    ?_, fun l hl => (hstops l hl).1, ?_⟩
  · intro before after heq hlt
    exact hwalk.escape_iff (hraw.symm.trans heq) hlt
  · intro k
    refine backslashes_flatten fun span hmem => ?_
    exact exists_span_of_mem hwalk.forall₂_span (List.mem_of_mem_take hmem)
  · intro hnone
    rcases hwalk.fault_cases with ⟨-, hrest⟩ | ⟨f, hsome, -⟩
    · exact hrest
    · cases hsome.symm.trans hnone
  · intro l
    constructor
    · intro hl
      exact ⟨_, _, hstops l hl⟩
    · rintro ⟨before, after, hfailure, hposition⟩
      rcases hwalk.fault_cases with ⟨hnone, rfl⟩ | ⟨f, hsome, hfails⟩
      · have hlength := hfirst hfailure.raw_eq hfailure.fails
        rw [List.append_nil] at hraw
        rw [← hraw, hfailure.raw_eq, List.length_append] at hlength
        have hnil : after = [] := List.length_eq_zero_iff.1 (by omega)
        exact absurd hnil hfailure.fails.ne_nil
      · have hle := hfirst hfailure.raw_eq hfailure.fails
        have hge := hfailure.first _ _ _ hraw hfails
        obtain ⟨rfl, rfl⟩ := List.append_inj (hraw.symm.trans hfailure.raw_eq)
          (Nat.le_antisymm hle hge)
        obtain ⟨f', p⟩ := l
        cases hfails.unique hfailure.fails
        cases hposition
        exact hsome

end Source

end Javelet

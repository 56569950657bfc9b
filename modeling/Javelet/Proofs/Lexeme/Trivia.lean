import Javelet.Proofs.Lexeme.Legible
import Javelet.Proofs.Lexeme.NumberScans

/-!
# Blanks and comments are skipped, and nothing else

What may stand between lexemes is told without a skipper: blanks, line comments up to their line
feed and block comments up to the first mark that closes them. The skipper uses up exactly this, and
stops where neither a blank nor a comment starts. In the middle of a comment, what it has still to
read makes up trivia together with the mark that opened the comment.
-/
namespace Javelet.Lexeme

/-- Blanks and complete comments in front of the text `after`. The end of the whole text completes a
line comment, too. -/
inductive IsTrivia (after : List Char) : List Char → Prop
  | nil : IsTrivia after []
  | blank {c : Char} {text : List Char} : c ∈ [' ', '\t', '\n', '\r', '\x0c'] →
      IsTrivia after text → IsTrivia after (c :: text)
  | line {body text : List Char} : '\n' ∉ body → IsTrivia after text →
      IsTrivia after ('/' :: '/' :: (body ++ '\n' :: text))
  | lastLine {body : List Char} : '\n' ∉ body → after = [] → IsTrivia after ('/' :: '/' :: body)
  | block {body text : List Char} : ¬ ['*', '/'] <:+: body → IsTrivia after text →
      IsTrivia after ('/' :: '*' :: (body ++ '*' :: '/' :: text))

/-- Neither a blank nor a comment starts here. -/
structure Bare (text : List Char) : Prop where
  blank : ∀ c ∈ text.head?, c ∉ [' ', '\t', '\n', '\r', '\x0c']
  line : ¬ ['/', '/'] <+: text
  block : ¬ ['/', '*'] <+: text

theorem isBlank_iff {c : Char} : isBlank c = true ↔ c ∈ [' ', '\t', '\n', '\r', '\x0c'] := by
  simp [isBlank, or_assoc]

/-! ## What is skipped -/

theorem IsTrivia.line_cons {after text : List Char} {c : Char} (hc : c ≠ '\n')
    (h : IsTrivia after ('/' :: '/' :: text)) : IsTrivia after ('/' :: '/' :: c :: text) := by
  cases h with
  | blank hblank => exact absurd hblank (by decide)
  | line hbody htext =>
    rw [← List.cons_append]
    exact .line (List.not_mem_cons_of_ne_of_not_mem hc.symm hbody) htext
  | lastLine hbody hafter =>
    exact .lastLine (List.not_mem_cons_of_ne_of_not_mem hc.symm hbody) hafter

theorem IsTrivia.block_cons {after text : List Char} {c : Char}
    (hc : c = '*' → text.head? ≠ some '/') (h : IsTrivia after ('/' :: '*' :: text)) :
    IsTrivia after ('/' :: '*' :: c :: text) := by
  cases h with
  | blank hblank => exact absurd hblank (by decide)
  | block hbody htext =>
    rename_i body text
    rw [← List.cons_append]
    refine .block (fun hinfix => ?_) htext
    rcases List.infix_cons_iff.1 hinfix with ⟨tail, hclose⟩ | hinfix
    · cases hclose
      exact hc rfl rfl
    · exact hbody hinfix

/-- What the skipper has read of a comment. -/
def Trivia.opening : Trivia → List Char
  | .between => []
  | .line => ['/', '/']
  | .block _ => ['/', '*']

theorem isTrivia_of_skipTrivia {state : Trivia} {cs rest : List SourceChar}
    (h : skipTrivia state cs = .ok rest) :
    ∃ trivia, cs = trivia ++ rest ∧ IsTrivia (textOf rest) (state.opening ++ textOf trivia) ∧
      Bare (textOf rest) := by
  have hbare : Bare [] := ⟨nofun, by simp, by simp⟩
  fun_induction skipTrivia state cs with
  | case1 =>
    cases h
    exact ⟨[], rfl, .nil, hbare⟩
  | case2 c hblank =>
    cases h
    exact ⟨[c], rfl, .blank (isBlank_iff.1 hblank) .nil, hbare⟩
  | case3 c hblank =>
    cases h
    refine ⟨[], rfl, .nil, ?_, by simp, by simp⟩
    rintro _ ⟨⟩
    rwa [← isBlank_iff]
  | case4 c d more hblank ih =>
    obtain ⟨trivia, hmore, htrivia, hrest⟩ := ih h
    exact ⟨c :: trivia, by rw [hmore]; rfl, .blank (isBlank_iff.1 hblank) htrivia, hrest⟩
  | case5 c d more _ hopen ih =>
    obtain ⟨trivia, rfl, htrivia, hrest⟩ := ih h
    exact ⟨c :: d :: trivia, rfl, by simpa [Trivia.opening, hopen] using htrivia, hrest⟩
  | case6 c d more _ _ hopen ih =>
    obtain ⟨trivia, rfl, htrivia, hrest⟩ := ih h
    exact ⟨c :: d :: trivia, rfl, by simpa [Trivia.opening, hopen] using htrivia, hrest⟩
  | case7 c d more hblank hline hblock =>
    cases h
    refine ⟨[], rfl, .nil, ?_, ?_, ?_⟩
    · rintro _ ⟨⟩
      rwa [← isBlank_iff]
    · simpa [eq_comm] using hline
    · simpa [eq_comm] using hblock
  | case8 =>
    cases h
    exact ⟨[], rfl, .lastLine List.not_mem_nil rfl, hbare⟩
  | case9 c more hend ih =>
    obtain ⟨trivia, rfl, htrivia, hrest⟩ := ih h
    refine ⟨c :: trivia, rfl, ?_, hrest⟩
    rw [textOf_cons, hend]
    exact .line List.not_mem_nil htrivia
  | case10 c more hend ih =>
    obtain ⟨trivia, rfl, htrivia, hrest⟩ := ih h
    exact ⟨c :: trivia, rfl, htrivia.line_cons hend, hrest⟩
  | case11 => cases h
  | case12 => cases h
  | case13 opened c d more hclose ih =>
    obtain ⟨trivia, rfl, htrivia, hrest⟩ := ih h
    refine ⟨c :: d :: trivia, rfl, ?_, hrest⟩
    rw [textOf_cons, textOf_cons, hclose.1, hclose.2]
    exact .block (by simp) htrivia
  | case14 opened c d more hopen ih =>
    obtain ⟨trivia, hmore, htrivia, hrest⟩ := ih h
    refine ⟨c :: trivia, by rw [hmore]; rfl, htrivia.block_cons fun hstar hslash => ?_, hrest⟩
    cases trivia with
    | nil => cases hslash
    | cons e trivia =>
      cases hmore
      exact hopen ⟨hstar, Option.some.inj hslash⟩

/-! ## Everything of it is skipped -/

theorem skipTrivia_blank {c : SourceChar} (hc : isBlank c.char = true) (rest : List SourceChar) :
    skipTrivia .between (c :: rest) = skipTrivia .between rest := by
  cases rest with
  | nil => simp [skipTrivia, hc]
  | cons d rest => simp [skipTrivia, hc]

theorem skipTrivia_line {body : List SourceChar} (h : '\n' ∉ textOf body)
    (rest : List SourceChar) : skipTrivia .line (body ++ rest) = skipTrivia .line rest := by
  induction body with
  | nil => rfl
  | cons c body ih =>
    rw [textOf_cons, List.mem_cons, not_or] at h
    rw [List.cons_append, skipTrivia, if_neg (Ne.symm h.1), ih h.2]

theorem skipTrivia_block {body : List SourceChar} {star slash : SourceChar}
    (h : ¬ ['*', '/'] <:+: textOf body) (hstar : star.char = '*') (hslash : slash.char = '/')
    (opened : Position) (rest : List SourceChar) :
    skipTrivia (.block opened) (body ++ star :: slash :: rest) = skipTrivia .between rest := by
  induction body with
  | nil => rw [List.nil_append, skipTrivia, if_pos ⟨hstar, hslash⟩]
  | cons c body ih =>
    rw [textOf_cons, List.infix_cons_iff, not_or] at h
    refine Eq.trans ?_ (ih h.2)
    cases body with
    | nil =>
      have hopen : ¬ (c.char = '*' ∧ star.char = '/') := by simp [hstar]
      rw [List.cons_append, List.nil_append, skipTrivia, if_neg hopen]
    | cons d body =>
      have hopen : ¬ (c.char = '*' ∧ d.char = '/') := by simpa [eq_comm] using h.1
      rw [List.cons_append, List.cons_append, skipTrivia, if_neg hopen]

theorem skipTrivia_bare {cs : List SourceChar} (h : Bare (textOf cs)) :
    skipTrivia .between cs = .ok cs := by
  cases cs with
  | nil => rfl
  | cons c rest =>
    refine skipTrivia_lexeme ?_ fun hslash d hd => ?_
    · rw [← Bool.not_eq_true, isBlank_iff]
      exact h.blank _ rfl
    · obtain ⟨more, rfl⟩ := List.head?_eq_some_iff.1 hd
      have hline := h.line
      have hblock := h.block
      rw [textOf_cons, textOf_cons, hslash] at hline hblock
      exact ⟨fun he => hline (by simp [he]), fun he => hblock (by simp [he])⟩

theorem skipTrivia_trivia {trivia rest : List SourceChar}
    (h : IsTrivia (textOf rest) (textOf trivia)) :
    skipTrivia .between (trivia ++ rest) = skipTrivia .between rest := by
  generalize htrivia : textOf trivia = text at h
  induction h generalizing trivia with
  | nil =>
    obtain rfl := eq_nil_of_textOf htrivia
    rfl
  | blank hblank _ ih =>
    obtain ⟨c, trivia, rfl, rfl, htext⟩ := exists_cons_of_textOf htrivia
    rw [List.cons_append, skipTrivia_blank (isBlank_iff.2 hblank), ih htext]
  | line hbody _ ih =>
    obtain ⟨c, tail, rfl, hc, htail⟩ := exists_cons_of_textOf htrivia
    obtain ⟨d, tail, rfl, hd, htail⟩ := exists_cons_of_textOf htail
    obtain ⟨body, tail, rfl, rfl, hend⟩ := exists_append_of_textOf htail
    obtain ⟨e, trivia, rfl, he, htext⟩ := exists_cons_of_textOf hend
    rw [← ih htext]
    simp [skipTrivia, hc, hd, isBlank, skipTrivia_line hbody, he]
  | lastLine hbody hafter =>
    obtain ⟨c, tail, rfl, hc, htail⟩ := exists_cons_of_textOf htrivia
    obtain ⟨d, body, rfl, hd, rfl⟩ := exists_cons_of_textOf htail
    obtain rfl := eq_nil_of_textOf hafter
    have hbody := skipTrivia_line hbody []
    rw [List.append_nil] at hbody
    simp [skipTrivia, hc, hd, isBlank, hbody]
  | block hbody _ ih =>
    obtain ⟨c, tail, rfl, hc, htail⟩ := exists_cons_of_textOf htrivia
    obtain ⟨d, tail, rfl, hd, htail⟩ := exists_cons_of_textOf htail
    obtain ⟨body, tail, rfl, rfl, hend⟩ := exists_append_of_textOf htail
    obtain ⟨star, tail, rfl, hstar, hend⟩ := exists_cons_of_textOf hend
    obtain ⟨slash, trivia, rfl, hslash, htext⟩ := exists_cons_of_textOf hend
    rw [← ih htext]
    simp [skipTrivia, hc, hd, isBlank, skipTrivia_block hbody hstar hslash]

/-- The skipper leaves what stands behind the blanks and comments. -/
theorem skipTrivia_eq_ok {cs rest : List SourceChar} :
    skipTrivia .between cs = .ok rest ↔
      ∃ trivia, cs = trivia ++ rest ∧ IsTrivia (textOf rest) (textOf trivia) ∧
        Bare (textOf rest) := by
  constructor
  · exact isTrivia_of_skipTrivia
  · rintro ⟨trivia, rfl, htrivia, hrest⟩
    rw [skipTrivia_trivia htrivia, skipTrivia_bare hrest]

end Javelet.Lexeme

import Javelet.Proofs.Lexeme.Lexemes
import Javelet.Proofs.Lexeme.Trivia
import Javelet.Proofs.Token.RoundTrip

/-!
# A source text is made of trivia and lexemes in turn

Every character of a decoded text belongs to a blank or comment, or to the lexeme of one token, and
to no two of them. This holds for each step of the lexer, in both directions: it finds a token
exactly where, behind trivia, a lexeme of this token stands, and it is at the end where nothing but
trivia is left. Put together, the tokens of a source text are the only ones with which its
characters alternate in this way.
-/
namespace Javelet

open Lexeme

/-- A decoded text in which trivia and lexemes follow each other in turn, with one lexeme for each
of the tokens in their order. A token stands where its lexeme starts. -/
inductive Alternates : List SourceChar → List Token → Prop
  | finish {trivia : List SourceChar} : IsTrivia [] (textOf trivia) → Alternates trivia []
  | token {trivia lexeme after : List SourceChar} {t : Token} {ts : List Token} :
      IsTrivia (textOf (lexeme ++ after)) (textOf trivia) → Bare (textOf (lexeme ++ after)) →
      IsLexeme (textOf after) t.kind t.text.toList (textOf lexeme) →
      lexeme.head?.map SourceChar.position = some t.position → Alternates after ts →
      Alternates (trivia ++ (lexeme ++ after)) (t :: ts)

namespace Lexer

theorem next_eq_none {l : Lexer} :
    l.next = none ↔ l.pending = none ∧ IsTrivia [] (textOf l.rest) := by
  constructor
  · intro h
    unfold next at h
    split at h
    · cases h
    · rename_i hskip
      obtain ⟨trivia, hrest, htrivia, -⟩ := skipTrivia_eq_ok.1 hskip
      rw [List.append_nil] at hrest
      exact ⟨Option.map_eq_none_iff.1 h, hrest ▸ htrivia⟩
    · simp only at h
      split at h
      · cases h
      · split at h
        · cases h
        · cases h
  · rintro ⟨hpending, htrivia⟩
    have hskip : skipTrivia .between l.rest = .ok [] :=
      skipTrivia_eq_ok.2 ⟨l.rest, (List.append_nil _).symm, htrivia, nofun, by simp, by simp⟩
    simp only [next, hskip, hpending]
    rfl

theorem next_eq_token {l l' : Lexer} {t : Token} :
    l.next = some (.ok t, l') ↔ l'.pending = l.pending ∧
      ∃ trivia lexeme, l.rest = trivia ++ (lexeme ++ l'.rest) ∧
        IsTrivia (textOf (lexeme ++ l'.rest)) (textOf trivia) ∧
        Bare (textOf (lexeme ++ l'.rest)) ∧
        IsLexeme (textOf l'.rest) t.kind t.text.toList (textOf lexeme) ∧
        lexeme.head?.map SourceChar.position = some t.position := by
  constructor
  · intro h
    unfold next at h
    split at h
    · cases h
    · obtain ⟨fault, -, he⟩ := Option.map_eq_some_iff.1 h
      cases he
    · rename_i c rest hskip
      simp only at h
      split at h
      · rename_i token hfound
        cases h
        have hscan : scan c rest = ⟨.ok t, (scan c rest).rest⟩ := by rw [← hfound]
        obtain ⟨hposition, lexeme, hcs, hlexeme⟩ := scan_eq_ok.1 hscan
        obtain ⟨trivia, hrest, htrivia, hbare⟩ := skipTrivia_eq_ok.1 hskip
        rw [hcs] at hrest htrivia hbare
        refine ⟨rfl, trivia, lexeme, hrest, htrivia, hbare, hlexeme, ?_⟩
        obtain ⟨d, more, rfl, -⟩ := hlexeme.scan
        rw [List.cons_append, List.cons.injEq] at hcs
        rw [hposition, hcs.1]
        rfl
      · split at h
        · cases h
        · cases h
  · rintro ⟨hpending, trivia, lexeme, hrest, htrivia, hbare, hlexeme, hposition⟩
    obtain ⟨c, more, rfl, hscan⟩ := hlexeme.scan
    have hskip : skipTrivia .between l.rest = .ok (c :: more ++ l'.rest) :=
      skipTrivia_eq_ok.2 ⟨trivia, hrest, htrivia, hbare⟩
    have hp : c.position = t.position := Option.some.inj hposition
    rw [String.ofList_toList, hp] at hscan
    simp only [next, hskip, List.cons_append, hscan, ← hpending]

/-- A lexer hands out the tokens of its text if it is a text with trivia and lexemes in turn. -/
theorem tokensFrom_eq_ok {done ts : List Token} {l : Lexer} :
    l.tokensFrom done = .ok ts ↔
      ∃ us, ts = done.reverse ++ us ∧ l.pending = none ∧ Alternates l.rest us := by
  constructor
  · intro h
    fun_induction tokensFrom done l with
    | case1 done l hnone =>
      cases h
      obtain ⟨hpending, htrivia⟩ := next_eq_none.1 hnone
      exact ⟨[], (List.append_nil _).symm, hpending, .finish htrivia⟩
    | case2 done l token l' hnext ih =>
      obtain ⟨us, rfl, hpending, hus⟩ := ih h
      obtain ⟨hsame, trivia, lexeme, hrest, htrivia, hbare, hlexeme, hposition⟩ :=
        next_eq_token.1 hnext
      refine ⟨token :: us, by simp, hsame ▸ hpending, ?_⟩
      rw [hrest]
      exact .token htrivia hbare hlexeme hposition hus
    | case3 => cases h
  · rintro ⟨us, rfl, hpending, hus⟩
    obtain ⟨rest, pending⟩ := l
    cases hpending
    simp only at hus
    induction hus generalizing done with
    | finish htrivia =>
      rw [tokensFrom, List.append_nil]
      split
      · rfl
      · rename_i hnext
        cases (next_eq_none.2 ⟨rfl, htrivia⟩).symm.trans hnext
      · rename_i hnext
        cases (next_eq_none.2 ⟨rfl, htrivia⟩).symm.trans hnext
    | token htrivia hbare hlexeme hposition _ ih =>
      rename_i trivia lexeme after t ts _
      have hnext : next ⟨trivia ++ (lexeme ++ after), none⟩ = some (.ok t, ⟨after, none⟩) :=
        next_eq_token.2 ⟨rfl, trivia, lexeme, rfl, htrivia, hbare, hlexeme, hposition⟩
      rw [tokensFrom_of_next hnext, ih]
      simp

end Lexer

/-- A source text has certain tokens exactly if it can be decoded as a whole and its characters are
trivia and the lexemes of these tokens in turn. -/
theorem tokenize_alternates (source : String) (tokens : List Token) :
    tokenize source = .ok tokens ↔
      (Source.decode source).fault = none ∧ Alternates (Source.decode source).chars tokens := by
  rw [tokenize, Lexer.tokensFrom_eq_ok]
  constructor
  · rintro ⟨us, rfl, hfault, hus⟩
    exact ⟨hfault, hus⟩
  · rintro ⟨hfault, hus⟩
    exact ⟨tokens, rfl, hfault, hus⟩

end Javelet

import Javelet.Proofs.Lexeme.Trivia
import Javelet.Proofs.Token.Words

/-!
# Tokens are read again from their spellings

Tokens that are written one behind the other, with a blank between neighbours, decode to the same
characters. The blank ends each lexeme and is skipped before the next, so the lexer finds the same
kinds and texts in the same order.
-/
namespace Javelet

open Lexeme

/-! ## The written text -/

/-- The characters of a token behind a blank. -/
def Token.spaced (t : Token) : List Char := ' ' :: t.spelling.toList

theorem toList_respell_cons (t : Token) (ts : List Token) :
    (respell (t :: ts)).toList = t.spelling.toList ++ ts.flatMap Token.spaced := by
  induction ts generalizing t with
  | nil => simp [respell]
  | cons u ts ih =>
    have hrest := ih u
    rw [respell, String.toList_intercalate] at hrest ⊢
    rw [List.flatMap_cons, Token.spaced, List.cons_append, ← hrest]
    simp [List.intercalate]

theorem verbatim_respell {ts : List Token} (h : ∀ t ∈ ts, Legible t) :
    Source.Verbatim (respell ts).toList := by
  cases ts with
  | nil => exact Source.verbatim_nil
  | cons t ts =>
    rw [List.forall_mem_cons] at h
    rw [toList_respell_cons]
    refine h.1.verbatim.append (.flatMap fun u hu => ?_)
    exact (Source.verbatim_char (by decide) (by decide)).append (h.2 u hu).verbatim

/-! ## Reading the tokens -/

theorem next_blank {c : SourceChar} (hc : c.char = ' ') (rest : List SourceChar)
    (pending : Option (Located Fault)) :
    Lexer.next ⟨c :: rest, pending⟩ = Lexer.next ⟨rest, pending⟩ := by
  have hblank : isBlank c.char = true := by
    rw [hc]
    decide
  simp only [Lexer.next, skipTrivia_blank hblank]

/-- The spelling of a token is the next lexeme. -/
theorem next_spelled {t : Token} (ht : Legible t) {again rest : List SourceChar}
    (h : textOf again = t.spelling.toList) (ha : Apart rest) :
    ∃ p, Lexer.next ⟨again ++ rest, none⟩ = some (.ok ⟨t.kind, t.text, p⟩, ⟨rest, none⟩) := by
  obtain ⟨c, more, p, rfl, hskip, hscan⟩ := ht.read again rest h ha
  rw [List.cons_append] at hskip
  refine ⟨p, ?_⟩
  simp only [Lexer.next, List.cons_append, hskip, hscan]

theorem tokensFrom_of_next {done : List Token} {t : Token} {l l' : Lexer}
    (h : l.next = some (.ok t, l')) : l.tokensFrom done = l'.tokensFrom (t :: done) := by
  rw [Lexer.tokensFrom]
  split
  · rename_i hnone
    cases h.symm.trans hnone
  · rename_i hnext
    cases h.symm.trans hnext
    rfl
  · rename_i hnext
    cases h.symm.trans hnext

/-- What a token is, wherever it stands. -/
def Token.content (t : Token) : Kind × String := (t.kind, t.text)

theorem apart_spaced {ts : List Token} {cs : List SourceChar}
    (h : textOf cs = ts.flatMap Token.spaced) : Apart cs := by
  intro c hc
  cases ts with
  | nil =>
    obtain rfl := eq_nil_of_textOf h
    cases hc
  | cons t ts =>
    obtain ⟨d, more, rfl, hd, -⟩ := exists_cons_of_textOf h
    cases hc
    exact hd

/-- Reading tokens that follow each other, each behind a blank. -/
theorem tokensFrom_spaced {ts : List Token} (hts : ∀ t ∈ ts, Legible t) {cs : List SourceChar}
    (h : textOf cs = ts.flatMap Token.spaced) (done : List Token) :
    ∃ again, Lexer.tokensFrom done ⟨cs, none⟩ = .ok (done.reverse ++ again) ∧
      again.map Token.content = ts.map Token.content := by
  induction ts generalizing cs done with
  | nil =>
    obtain rfl := eq_nil_of_textOf h
    refine ⟨[], ?_, rfl⟩
    rw [Lexer.tokensFrom, List.append_nil]
    rfl
  | cons t ts ih =>
    rw [List.forall_mem_cons] at hts
    obtain ⟨blank, others, rfl, hblank, hothers⟩ := exists_cons_of_textOf h
    obtain ⟨spelled, rest, rfl, hspelled, hrest⟩ := List.map_eq_append_iff.1 hothers
    obtain ⟨p, hnext⟩ := next_spelled hts.1 hspelled (apart_spaced hrest)
    obtain ⟨again, htokens, hcontent⟩ := ih hts.2 hrest (⟨t.kind, t.text, p⟩ :: done)
    refine ⟨⟨t.kind, t.text, p⟩ :: again, ?_, ?_⟩
    · rw [tokensFrom_of_next ((next_blank hblank _ _).trans hnext), htokens, List.reverse_cons,
        List.append_assoc]
      rfl
    · rw [List.map_cons, List.map_cons, hcontent]
      rfl

/-- Writing legible tokens and reading them gives the same tokens. -/
theorem tokenize_respell {ts : List Token} (h : ∀ t ∈ ts, Legible t) :
    ∃ again, tokenize (respell ts) = .ok again ∧
      again.map Token.content = ts.map Token.content := by
  obtain ⟨htext, hfault⟩ := (verbatim_respell h).decode
  rw [tokenize, Lexer.ofSource, hfault]
  cases ts with
  | nil => exact tokensFrom_spaced h htext []
  | cons t ts =>
    rw [List.forall_mem_cons] at h
    rw [toList_respell_cons] at htext
    obtain ⟨spelled, rest, hchars, hspelled, hrest⟩ := List.map_eq_append_iff.1 htext
    obtain ⟨p, hnext⟩ := next_spelled h.1 hspelled (apart_spaced hrest)
    obtain ⟨again, htokens, hcontent⟩ := tokensFrom_spaced h.2 hrest [⟨t.kind, t.text, p⟩]
    refine ⟨⟨t.kind, t.text, p⟩ :: again, ?_, ?_⟩
    · rw [hchars, tokensFrom_of_next hnext, htokens]
      rfl
    · rw [List.map_cons, List.map_cons, hcontent]
      rfl

/-- A source text and its tokens, written with single blanks between them, have the same tokens:
as many of them, with the same kinds and texts in the same order. -/
theorem tokenize_roundTrip {source : String} {tokens : List Token}
    (h : tokenize source = .ok tokens) :
    ∃ again, tokenize (respell tokens) = .ok again ∧ again.length = tokens.length ∧
      again.map (fun t => (t.kind, t.text)) = tokens.map fun t => (t.kind, t.text) := by
  obtain ⟨again, htokens, hcontent⟩ := tokenize_respell
    (forall_mem_tokenize (fun _ _ _ => legible_scan) h)
  refine ⟨again, htokens, ?_, hcontent⟩
  have hlength := congrArg List.length hcontent
  rwa [List.length_map, List.length_map] at hlength

/-- An octal and a unicode escape, a backslash before the letter of such an escape, quotes of both
sorts, a carriage return, and a number that starts with a point. -/
def quotedSource : String :=
  "s='\\'';/*\\u0041*/t+=\"\\\\u0041\\101\\u0042\\r'\\\"\"+.5e+1f>>>=0x1F"

theorem quotedSource_roundTrip :
    ∃ tokens again, tokenize quotedSource = .ok tokens ∧
      tokens.map Token.text =
        ["s", "=", "'", ";", "t", "+=", "\\u0041AB\r'\"", "+", ".5e+1f", ">>>=", "0x1F"] ∧
      tokenize (respell tokens) = .ok again ∧ again.length = tokens.length ∧
      again.map (fun t => (t.kind, t.text)) = tokens.map fun t => (t.kind, t.text) := by
  have htexts : ((tokenize quotedSource).map (List.map Token.text)).toOption = some
      ["s", "=", "'", ";", "t", "+=", "\\u0041AB\r'\"", "+", ".5e+1f", ">>>=", "0x1F"] := by
    rw [tokenize_ofList (s := quotedSource) rfl]
    decide +kernel
  cases htokens : tokenize quotedSource with
  | error fault =>
    rw [htokens] at htexts
    cases htexts
  | ok tokens =>
    rw [htokens] at htexts
    obtain ⟨again, hagain⟩ := tokenize_roundTrip htokens
    exact ⟨tokens, again, rfl, Option.some.inj htexts, hagain⟩

end Javelet

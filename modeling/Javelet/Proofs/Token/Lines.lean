import Javelet.Proofs.Source.Spans
import Javelet.Proofs.Token.Alternation

/-!
# Tokens line by line

Nothing that has begun goes on behind a line feed, if it has come to an end in front of it. To the
decoder the line feed belongs to no escape and no line end in front of it, and behind it the decoder
is in the state that it started in, only further down. To the lexer no lexeme holds a line feed, a
line comment ends with it, and a block comment is closed by then. So the tokens of a text with a
line feed in it are the tokens of both parts, if both have tokens at all, and those of the second
part only stand further down.
-/
namespace Javelet

/-- The place `n` lines further down. -/
def Position.down (n : Nat) (p : Position) : Position := ⟨p.line + n, p.column⟩

/-- A decoded character `n` lines further down. -/
def SourceChar.down (n : Nat) (c : SourceChar) : SourceChar := ⟨c.char, c.position.down n⟩

/-- A token `n` lines further down. -/
def Token.down (n : Nat) (t : Token) : Token := ⟨t.kind, t.text, t.position.down n⟩

/-! ## Decoding further down -/

namespace Source

/-- A front of a text `n` lines further down. -/
def Front.down (n : Nat) : Front → Front
  | .finish => .finish
  | .char c after odd rest => .char c (after.down n) odd rest
  | .fault f => .fault f

theorem nextLine_down (n : Nat) (p : Position) : (p.down n).nextLine = p.nextLine.down n := by
  simp only [Position.nextLine, Position.down, Nat.add_right_comm]

theorem front_down (n : Nat) (p : Position) (odd : Bool) (cs : List Char) :
    front (p.down n) odd cs = (front p odd cs).down n := by
  have hright : ∀ width, (p.down n).right width = (p.right width).down n := fun _ => rfl
  cases cs with
  | nil => rfl
  | cons c rest =>
    simp only [front, nextLine_down, hright]
    repeat' split
    all_goals rfl

/-- Decoding further down, behind other characters. -/
theorem decodeFrom_down (n : Nat) (earlier : List SourceChar) (done : List SourceChar)
    (p : Position) (odd : Bool) (cs : List Char) :
    decodeFrom (done.map (·.down n) ++ earlier) (p.down n) odd cs =
      ⟨earlier.reverse ++ (decodeFrom done p odd cs).chars.map (·.down n),
        (decodeFrom done p odd cs).finish.down n,
        (decodeFrom done p odd cs).fault.map fun l => ⟨l.fault, l.position.down n⟩⟩ := by
  fun_induction decodeFrom done p odd cs with
  | case1 done p odd cs hfront =>
    have hdown := front_down n p odd cs
    rw [hfront] at hdown
    rw [decodeFrom_finish hdown]
    simp
  | case2 done p odd cs f hfront =>
    have hdown := front_down n p odd cs
    rw [hfront] at hdown
    rw [decodeFrom_fault hdown]
    simp
  | case3 done p odd cs c after odd' rest hfront ih =>
    have hdown := front_down n p odd cs
    rw [hfront] at hdown
    rw [decodeFrom_char hdown, ← ih]
    rfl

/-! ## Decoding in front of a line feed -/

theorem unicodeEscape?_append {cs rest : List Char} {c : Char} {width : Nat}
    (h : unicodeEscape? cs = some (c, width, rest)) (more : List Char) :
    unicodeEscape? (cs ++ more) = some (c, width, rest ++ more) := by
  unfold unicodeEscape? at h ⊢
  split at h
  · rename_i a b c d tail hdrop
    have hlength : (cs.takeWhile (· == 'u')).length ≠ cs.length := by
      have hsplit := List.takeWhile_append_dropWhile (p := (· == 'u')) (l := cs)
      rw [hdrop] at hsplit
      have hsplit := congrArg List.length hsplit
      rw [List.length_append, List.length_cons] at hsplit
      omega
    rw [List.dropWhile_append, List.takeWhile_append, hdrop, if_neg hlength]
    split at h
    · rename_i value hvalue
      split at h
      · rename_i hvalid
        simp only [Option.some.injEq, Prod.mk.injEq] at h
        obtain ⟨rfl, rfl, rfl⟩ := h
        simp [hvalue, hvalid]
      · cases h
    · cases h
  · cases h

/-- Reading a character does not depend on what stands behind a line feed further on. -/
theorem front_lineFeed {p after : Position} {odd odd' : Bool} {cs rest : List Char} {c : Char}
    (h : front p odd cs = .char c after odd' rest) (more : List Char) :
    front p odd (cs ++ '\n' :: more) = .char c after odd' (rest ++ '\n' :: more) := by
  cases cs with
  | nil => cases h
  | cons d cs =>
    have hu : (cs ++ '\n' :: more).head? = some 'u' ↔ cs.head? = some 'u' := by
      cases cs <;> simp
    rw [List.cons_append]
    simp only [front, hu] at h ⊢
    split at h
    · rename_i hslash
      rw [if_pos hslash]
      split at h
      · rename_i hstarts
        rw [if_pos hstarts]
        split at h
        · rename_i hescape
          cases h
          rw [unicodeEscape?_append hescape]
        · cases h
      · rename_i hstarts
        cases h
        rw [if_neg hstarts]
    · rename_i hslash
      rw [if_neg hslash]
      split at h
      · rename_i hreturn
        rw [if_pos hreturn]
        split at h
        · rename_i hfeed
          obtain ⟨tail, rfl⟩ := List.head?_eq_some_iff.1 hfeed
          cases h
          rfl
        · cases h
      · rename_i hreturn
        rw [if_neg hreturn]
        split at h
        · rename_i hline
          cases h
          rw [if_pos hline]
        · rename_i hline
          rw [if_neg hline]
          split at h
          · rename_i htab
            cases h
            rw [if_pos htab]
          · rename_i htab
            cases h
            rw [if_neg htab]

theorem front_eq_finish {p : Position} {odd : Bool} {cs : List Char}
    (h : front p odd cs = .finish) : cs = [] := by
  cases cs with
  | nil => rfl
  | cons c cs =>
    simp only [front] at h
    repeat' split at h
    all_goals cases h

/-- Behind a text that is decoded as a whole, a line feed is read as such. -/
theorem decodeFrom_lineFeed {done : List SourceChar} {p : Position} {odd : Bool} {cs : List Char}
    (h : (decodeFrom done p odd cs).fault = none) (more : List Char) :
    decodeFrom done p odd (cs ++ '\n' :: more) =
      decodeFrom
        (⟨'\n', (decodeFrom done p odd cs).finish⟩ :: (decodeFrom done p odd cs).chars.reverse)
        (decodeFrom done p odd cs).finish.nextLine false more := by
  fun_induction decodeFrom done p odd cs with
  | case1 done p odd cs hfront =>
    obtain rfl := front_eq_finish hfront
    rw [List.nil_append, List.reverse_reverse]
    exact decodeFrom_char (by simp [front])
  | case2 => cases h
  | case3 done p odd cs c after odd' rest hfront ih =>
    rw [decodeFrom_char (front_lineFeed hfront more), ih h]

/-- A text behind a text that is decoded as a whole, with a line feed between them. -/
theorem decode_lineFeed {a : String} (h : (decode a).fault = none) (b : String) :
    decode (a ++ "\n" ++ b) =
      ⟨(decode a).chars ++ ⟨'\n', (decode a).finish⟩ ::
          (decode b).chars.map (·.down (1 + a.toList.count '\n')),
        (decode b).finish.down (1 + a.toList.count '\n'),
        (decode b).fault.map fun l => ⟨l.fault, l.position.down (1 + a.toList.count '\n')⟩⟩ := by
  have hfinish : (decode a).finish.nextLine = Position.start.down (1 + a.toList.count '\n') := by
    obtain ⟨spans, rest, chars, fault, hraw, hwalk, hdecode⟩ := exists_walk [] a.toList .start
    rw [decode, hdecode] at h
    rcases hwalk.fault_cases with ⟨-, rfl⟩ | ⟨f, hsome, -⟩
    · rw [List.append_nil] at hraw
      rw [decode, hdecode, ← hraw]
      simp [placeBehind, Position.nextLine, Position.start, Position.down, Nat.add_comm]
    · cases h.symm.trans hsome
  have htext : (a ++ "\n" ++ b).toList = a.toList ++ '\n' :: b.toList := by
    simp
  rw [decode, htext, decodeFrom_lineFeed h]
  change decodeFrom (⟨'\n', (decode a).finish⟩ :: (decode a).chars.reverse)
    (decode a).finish.nextLine false b.toList = _
  have hrest := decodeFrom_down (1 + a.toList.count '\n')
    (⟨'\n', (decode a).finish⟩ :: (decode a).chars.reverse) [] .start false b.toList
  rw [List.map_nil, List.nil_append] at hrest
  rw [hfinish, hrest]
  simp [decode]

end Source

namespace Lexeme

theorem prefix_of_lineFeed {t text more : List Char} (h : t <+: text ++ '\n' :: more)
    (ht : '\n' ∉ t) : t <+: text := by
  obtain ⟨tail, h⟩ := h
  rcases List.append_eq_append_iff.1 h with ⟨rest, rfl, -⟩ | ⟨extra, rfl, hmore⟩
  · exact List.prefix_append ..
  · cases extra with
    | nil => exact ⟨[], by rw [List.append_nil, List.append_nil]⟩
    | cons c extra =>
      cases hmore
      exact absurd (by simp) ht

/-! ## Trivia -/

/-- A line feed ends trivia that reaches to the end of a text. -/
theorem IsTrivia.lineFeed {after text more : List Char} (h : IsTrivia [] text)
    (h' : IsTrivia after more) : IsTrivia after (text ++ '\n' :: more) := by
  induction h with
  | nil => exact .blank (by decide) h'
  | blank hc _ ih => exact .blank hc ih
  | line hbody _ ih => simpa using IsTrivia.line hbody ih
  | lastLine hbody _ => exact .line hbody h'
  | block hbody _ ih => simpa using IsTrivia.block hbody ih

/-- Only at the end of a text the trivia depend on what follows. -/
theorem IsTrivia.in_front {after after' text : List Char} (h : IsTrivia after text)
    (hafter : after ≠ []) : IsTrivia after' text := by
  induction h with
  | nil => exact .nil
  | blank hc _ ih => exact .blank hc ih
  | line hbody _ ih => exact .line hbody ih
  | lastLine _ hnil => exact absurd hnil hafter
  | block hbody _ ih => exact .block hbody ih

theorem Bare.lineFeed {text : List Char} (h : Bare text) (htext : text ≠ []) (more : List Char) :
    Bare (text ++ '\n' :: more) := by
  refine ⟨fun c hc => h.blank c ?_, fun hline => ?_, fun hblock => ?_⟩
  · rwa [List.head?_append_of_ne_nil _ htext] at hc
  · exact h.line (prefix_of_lineFeed hline (by decide))
  · exact h.block (prefix_of_lineFeed hblock (by decide))

/-! ## Lexemes -/

section LineFeed

variable {after more : List SourceChar} {c : SourceChar}

theorem head?_lineFeed {q : Char → Prop} (hc : q '\n') {after more : List Char}
    (h : ∀ d ∈ after.head?, q d) : ∀ d ∈ (after ++ '\n' :: more).head?, q d := by
  cases after with
  | nil =>
    rintro _ ⟨⟩
    exact hc
  | cons d after => exact h

theorem PointFollows.of_lineFeed (hc : c.char = '\n') (h : PointFollows (after ++ c :: more)) :
    PointFollows after := by
  obtain ⟨d, e, tail, hcs, hpoint, hdigit⟩ := h
  match after with
  | [] =>
    cases hcs
    exact absurd (hpoint.symm.trans hc) (by decide)
  | [d] =>
    cases hcs
    rw [hc] at hdigit
    cases hdigit
  | d :: e :: after =>
    cases hcs
    exact ⟨d, e, after, rfl, hpoint, hdigit⟩

/-- A lexeme stays one if a line feed is put behind what follows it. -/
theorem IsLexeme.lineFeed {kind : Kind} {text : List Char} {lexeme : List SourceChar}
    (h : IsLexeme (textOf after) kind text (textOf lexeme)) (hc : c.char = '\n') :
    IsLexeme (textOf (after ++ c :: more)) kind text (textOf lexeme) := by
  have hafter : textOf (after ++ c :: more) = textOf after ++ '\n' :: textOf more := by
    rw [textOf_append, textOf_cons, hc]
  generalize hwritten : textOf lexeme = written at h ⊢
  cases h with
  | word hstart hparts hends =>
    rw [hafter]
    exact .word hstart hparts (head?_lineFeed (by decide) hends)
  | number hnumber hlongest hends =>
    have hends' : ∀ d ∈ (textOf (after ++ c :: more)).head?, Text.isWordPart d = false := by
      rw [hafter]
      exact head?_lineFeed (by decide) hends
    rw [← hwritten] at hnumber hlongest ⊢
    refine .number hnumber ?_ hends'
    rw [← textOf_append] at hlongest ⊢
    have hliteral := (literals_iff (forall_head?_textOf.1 hends)).2 ⟨hnumber, hlongest⟩
    refine ((literals_iff (forall_head?_textOf.1 hends')).1 ⟨hnumber, fun hall hpoint => ?_⟩).2
    exact hliteral.2 hall (hpoint.of_lineFeed hc)
  | string hbody => exact .string hbody
  | character hbody => exact .character hbody
  | symbol hlongest hdot =>
    rw [hafter]
    refine .symbol (fun other hother => hlongest other ?_) fun hs => ?_
    · rw [← List.append_assoc] at hother
      refine prefix_of_lineFeed hother ?_
      cases other <;> decide
    · exact head?_lineFeed (by decide) (hdot hs)

end LineFeed

end Lexeme

open Lexeme

/-! ## Alternation -/

theorem Alternates.lineFeed {as bs : List SourceChar} {ts us : List Token} {c : SourceChar}
    (h : Alternates as ts) (hc : c.char = '\n') (h' : Alternates bs us) :
    Alternates (as ++ c :: bs) (ts ++ us) := by
  induction h with
  | finish htrivia =>
    rename_i trivia
    have hjoin : ∀ {after : List Char} {more : List SourceChar}, IsTrivia after (textOf more) →
        IsTrivia after (textOf (trivia ++ c :: more)) := by
      intro after more hmore
      rw [textOf_append, textOf_cons, hc]
      exact htrivia.lineFeed hmore
    rw [List.nil_append]
    cases h' with
    | finish htrivia' => exact .finish (hjoin htrivia')
    | token htrivia' hbare hlexeme hposition hrest =>
      rw [← List.cons_append, ← List.append_assoc]
      exact .token (hjoin htrivia') hbare hlexeme hposition hrest
  | token htrivia hbare hlexeme hposition _ ih =>
    rename_i trivia lexeme after t ts _
    have hne : textOf (lexeme ++ after) ≠ [] := by
      obtain ⟨d, more, rfl, -⟩ := hlexeme.scan
      exact List.cons_ne_nil _ _
    rw [List.append_assoc, List.append_assoc, List.cons_append]
    refine .token (htrivia.in_front hne) ?_ (hlexeme.lineFeed hc) hposition ih
    rw [← List.append_assoc, textOf_append, textOf_cons, hc]
    exact hbare.lineFeed hne _

theorem textOf_down (n : Nat) (cs : List SourceChar) : textOf (cs.map (·.down n)) = textOf cs := by
  simp [textOf, SourceChar.down, Function.comp_def]

theorem Alternates.down {cs : List SourceChar} {ts : List Token} (n : Nat) (h : Alternates cs ts) :
    Alternates (cs.map (·.down n)) (ts.map (·.down n)) := by
  induction h with
  | finish htrivia => exact .finish (by rwa [textOf_down])
  | token htrivia hbare hlexeme hposition _ ih =>
    rw [List.map_append, List.map_append, List.map_cons]
    refine .token ?_ ?_ ?_ ?_ ih
    · rwa [← List.map_append, textOf_down, textOf_down]
    · rwa [← List.map_append, textOf_down]
    · rw [textOf_down, textOf_down]
      exact hlexeme
    · obtain ⟨c, hc, hp⟩ := Option.map_eq_some_iff.1 hposition
      rw [List.head?_map, hc, Token.down, ← hp]
      rfl

/-- The tokens of two texts with a line feed between them are the tokens of both, the later ones as
many lines further down as there are line feeds in front of them. -/
theorem tokenize_lineFeed {a b : String} {ts us : List Token} (ha : tokenize a = .ok ts)
    (hb : tokenize b = .ok us) :
    tokenize (a ++ "\n" ++ b) = .ok (ts ++ us.map (·.down (1 + a.toList.count '\n'))) := by
  rw [tokenize, Lexer.tokensFrom_eq_ok] at ha hb ⊢
  obtain ⟨ts, rfl, hafault, hts⟩ := ha
  obtain ⟨us, rfl, hbfault, hus⟩ := hb
  simp only [Lexer.ofSource] at *
  refine ⟨_, rfl, ?_, ?_⟩
  · rw [Source.decode_lineFeed hafault, hbfault]
    rfl
  · rw [Source.decode_lineFeed hafault]
    exact hts.lineFeed rfl (hus.down _)

/-- The line feed ends a comment with a backslash in it, so that the two do not make an escape with
what follows; and a tab counts on its own line only. -/
theorem tokenize_lineFeed_backslash :
    tokenize "a\r\n\tb // \\" = .ok [⟨.identifier, "a", ⟨1, 0⟩⟩, ⟨.identifier, "b", ⟨2, 4⟩⟩] ∧
      tokenize "u0041" = .ok [⟨.identifier, "u0041", ⟨1, 0⟩⟩] ∧
      tokenize ("a\r\n\tb // \\" ++ "\n" ++ "u0041") =
        .ok [⟨.identifier, "a", ⟨1, 0⟩⟩, ⟨.identifier, "b", ⟨2, 4⟩⟩,
          ⟨.identifier, "u0041", ⟨3, 0⟩⟩] := by
  have ha : tokenize "a\r\n\tb // \\" =
      .ok [⟨.identifier, "a", ⟨1, 0⟩⟩, ⟨.identifier, "b", ⟨2, 4⟩⟩] := by decide +kernel
  have hb : tokenize "u0041" = .ok [⟨.identifier, "u0041", ⟨1, 0⟩⟩] := by decide +kernel
  exact ⟨ha, hb, tokenize_lineFeed ha hb⟩

end Javelet

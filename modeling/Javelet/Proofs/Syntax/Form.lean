import Mathlib.Data.Bool.AllAny
import Javelet.Text.Visible

/-!
# Printed forms

A printed tree is made of words, of literals in quotes, of nodes in parentheses and of lists in
brackets. A form says which of these a text is made of. The text of a form can be read back,
whatever follows it: nodes and lists end where they are closed, the quotes in a literal are escaped,
and words hold none of the characters that stand between two parts.
-/
namespace Javelet

/-! ## Visible characters -/

namespace Text

/-- Read a visible form of a character. -/
def readVisible : List Char → Option (Char × List Char)
  | '\\' :: 't' :: rest => some ('\t', rest)
  | '\\' :: 'r' :: rest => some ('\r', rest)
  | '\\' :: 'n' :: rest => some ('\n', rest)
  | '\\' :: 'u' :: '\x7b' :: rest =>
    some (Char.ofNat (digitsValue 16 (rest.takeWhile (· != '\x7d'))),
      (rest.dropWhile (· != '\x7d')).tail)
  | '\\' :: c :: rest => some (c, rest)
  | c :: rest => some (c, rest)
  | [] => none

theorem ne_brace_of_mem_hexDigits {n : Nat} {c : Char} (h : c ∈ hexDigits n) : c ≠ '\x7d' := by
  have hdigit : ∀ k < 16, Nat.digitChar k ≠ '\x7d' := by decide
  obtain ⟨k, hk, rfl⟩ := exists_of_mem_hexDigits h
  exact hdigit k hk

/-- The visible form of a character tells the character and where it ends. -/
theorem readVisible_visible (c : Char) (rest : List Char) :
    readVisible (visible c ++ rest) = some (c, rest) := by
  unfold visible
  split
  · rename_i h
    rw [h]
    rfl
  · split
    · rename_i h
      rw [h]
      rfl
    · split
      · rename_i h
        rw [h]
        rfl
      · split
        · rename_i h
          rcases h with rfl | rfl | rfl
          · rfl
          · rfl
          · rfl
        · split
          · rename_i hescaped _
            have hne : c ≠ '\\' := fun he => hescaped (.inr (.inr he))
            simp [readVisible, hne]
          · have hdigits : ∀ d ∈ hexDigits c.toNat, (d != '\x7d') = true :=
              fun d hd => bne_iff_ne.2 (ne_brace_of_mem_hexDigits hd)
            simp [readVisible, List.takeWhile_append_of_pos hdigits,
              List.dropWhile_append_of_pos hdigits, digitsValue_hexDigits]

theorem visible_append_inj {c d : Char} {r r' : List Char} (h : visible c ++ r = visible d ++ r') :
    c = d ∧ r = r' := by
  have hread := readVisible_visible c r
  rw [h, readVisible_visible] at hread
  cases hread
  exact ⟨rfl, rfl⟩

theorem visible_head (c : Char) : ∃ d more, visible c = d :: more ∧ d ≠ '"' ∧ d ≠ '\'' := by
  unfold visible
  split
  · exact ⟨_, _, rfl, by decide, by decide⟩
  · split
    · exact ⟨_, _, rfl, by decide, by decide⟩
    · split
      · exact ⟨_, _, rfl, by decide, by decide⟩
      · split
        · exact ⟨_, _, rfl, by decide, by decide⟩
        · rename_i hquote
          split
          · exact ⟨c, [], rfl, fun h => hquote (.inr (.inl h)), fun h => hquote (.inl h)⟩
          · exact ⟨_, _, rfl, by decide, by decide⟩

/-- Visible characters are read up to a quote. -/
theorem visible_quote_inj {quote : Char} (hquote : quote ∈ ['"', '\'']) {value value' : List Char}
    {r r' : List Char}
    (h : value.flatMap visible ++ quote :: r = value'.flatMap visible ++ quote :: r') :
    value = value' ∧ r = r' := by
  have hapart : ∀ (c : Char) (rest r : List Char), visible c ++ rest ≠ quote :: r := by
    intro c rest r heq
    obtain ⟨d, more, hc, hdouble, hsingle⟩ := visible_head c
    rw [hc] at heq
    obtain rfl : d = quote := (List.cons.inj heq).1
    simp [hdouble, hsingle] at hquote
  induction value generalizing value' with
  | nil =>
    cases value' with
    | nil => exact ⟨rfl, (List.cons.inj h).2⟩
    | cons c value' =>
      rw [List.flatMap_cons, List.append_assoc] at h
      exact absurd h.symm (hapart c _ _)
  | cons c value ih =>
    rw [List.flatMap_cons, List.append_assoc] at h
    cases value' with
    | nil => exact absurd h (hapart c _ _)
    | cons c' value' =>
      rw [List.flatMap_cons, List.append_assoc] at h
      obtain ⟨rfl, hrest⟩ := visible_append_inj h
      obtain ⟨rfl, rfl⟩ := ih hrest
      exact ⟨rfl, rfl⟩

end Text

/-! ## Words -/

/-- The characters that stand between the parts of a text, and quotes. -/
def wordEnds : List Char := [' ', ',', '(', ')', '[', ']', '"', '\'']

/-- A text that can stand between others. -/
structure IsWord (text : String) : Prop where
  nonempty : text ≠ ""
  apart : ∀ c ∈ text.toList, c ∉ wordEnds

instance (text : String) : Decidable (IsWord text) :=
  decidable_of_iff (text ≠ "" ∧ text.toList.all fun c => c ∉ wordEnds)
    ⟨fun h => ⟨h.1, List.all_iff_forall_prop.1 h.2⟩,
      fun h => ⟨h.nonempty, List.all_iff_forall_prop.2 h.apart⟩⟩

theorem IsWord.exists_cons {text : String} (h : IsWord text) :
    ∃ c cs, text.toList = c :: cs ∧ c ∉ wordEnds := by
  cases htext : text.toList with
  | nil => exact absurd (String.toList_eq_nil_iff.1 htext) h.nonempty
  | cons c cs => exact ⟨c, cs, rfl, h.apart c (by rw [htext]; exact List.mem_cons_self ..)⟩

/-- A run of certain characters ends where another one follows. -/
theorem run_append_inj {q : Char → Prop} {xs xs' r r' : List Char} (h : ∀ c ∈ xs, q c)
    (h' : ∀ c ∈ xs', q c) (hr : ∀ c ∈ r.head?, ¬ q c) (hr' : ∀ c ∈ r'.head?, ¬ q c)
    (heq : xs ++ r = xs' ++ r') : xs = xs' ∧ r = r' := by
  induction xs generalizing xs' with
  | nil =>
    cases xs' with
    | nil => exact ⟨rfl, heq⟩
    | cons c cs =>
      rw [List.nil_append] at heq
      rw [heq] at hr
      exact absurd (h' c (List.mem_cons_self ..)) (hr c rfl)
  | cons c cs ih =>
    cases xs' with
    | nil =>
      rw [List.nil_append] at heq
      rw [← heq] at hr'
      exact absurd (h c (List.mem_cons_self ..)) (hr' c rfl)
    | cons c' cs' =>
      obtain ⟨rfl, hrest⟩ := List.cons.inj heq
      obtain ⟨rfl, rfl⟩ := ih (List.forall_mem_cons.1 h).2 (List.forall_mem_cons.1 h').2 hrest
      exact ⟨rfl, rfl⟩

theorem IsWord.append_inj {text text' : String} (h : IsWord text) (h' : IsWord text')
    {r r' : List Char} (hr : ∀ c ∈ r.head?, c ∈ wordEnds) (hr' : ∀ c ∈ r'.head?, c ∈ wordEnds)
    (heq : text.toList ++ r = text'.toList ++ r') : text = text' ∧ r = r' := by
  obtain ⟨htext, hrest⟩ := run_append_inj h.apart h'.apart (fun c hc => not_not_intro (hr c hc))
    (fun c hc => not_not_intro (hr' c hc)) heq
  exact ⟨String.toList_inj.1 htext, hrest⟩

/-! ## Forms -/

/-- What a printed text is made of. Brackets may stand right behind a word. -/
inductive Form where
  | word (text : String) (brackets : Bool)
  | quoted (quote : Char) (value : List Char)
  | node (tag : String) (parts : List Form)
  | list (items : List Form)

namespace Form

/-- A word without brackets. -/
abbrev plain (text : String) : Form := .word text false

/-- What stands between the parts of a node. Only blocks hold items that are separated by commas. -/
def separator (tag : String) : List Char := if tag = "stmt-block" then [',', ' '] else [' ']

mutual

def text : Form → List Char
  | .word text brackets => text.toList ++ if brackets then ['[', ']'] else []
  | .quoted quote value => quote :: (value.flatMap Text.visible ++ [quote])
  | .node tag parts => '(' :: '#' :: (tag.toList ++ (spread [' '] (separator tag) parts ++ [')']))
  | .list items => '[' :: (spread [] [',', ' '] items ++ [']'])

/-- The texts of forms, each with a separator in front of it; that of the first one is given. -/
def spread (first sep : List Char) : List Form → List Char
  | [] => []
  | f :: rest => first ++ (f.text ++ spread sep sep rest)

end

/-- All words and tags are words, and quotes are quotes. -/
inductive Plain : Form → Prop
  | word {text : String} {brackets : Bool} : IsWord text → Plain (.word text brackets)
  | quoted {quote : Char} {value : List Char} : quote ∈ ['"', '\''] → Plain (.quoted quote value)
  | node {tag : String} {parts : List Form} : IsWord tag → (∀ f ∈ parts, Plain f) →
      Plain (.node tag parts)
  | list {items : List Form} : (∀ f ∈ items, Plain f) → Plain (.list items)

/-! ## Reading forms back -/

/-- The first character of the text, unless the form is a word. -/
def mark? : Form → Option Char
  | .word _ _ => none
  | .quoted quote _ => some quote
  | .node _ _ => some '('
  | .list _ => some '['

/-- The characters that follow a form. -/
def followers : List Char := [' ', ',', ')', ']']

/-- A form can end in front of this text. -/
def Follows (r : List Char) : Prop := ∀ c ∈ r.head?, c ∈ followers

theorem Plain.head {f : Form} (h : f.Plain) : ∃ c cs, f.text = c :: cs ∧
    f.mark? = (if c ∈ wordEnds then some c else none) ∧ c ∉ followers := by
  have hfollowers : ∀ c ∈ followers, c ∈ wordEnds :=
      List.all_iff_forall_prop.1 (by decide)
  cases h with
  | @word text brackets hword =>
    obtain ⟨c, cs, htext, hc⟩ := hword.exists_cons
    refine ⟨c, _, by rw [Form.text, htext]; rfl, (if_neg hc).symm, fun hf => hc (hfollowers c hf)⟩
  | @quoted quote value hquote =>
    have hmark : ∀ c ∈ ['"', '\''], some c = (if c ∈ wordEnds then some c else none) ∧
        c ∉ followers := List.all_iff_forall_prop.1 (by decide)
    exact ⟨quote, _, by rw [Form.text], hmark quote hquote⟩
  | node => exact ⟨'(', _, by rw [Form.text], rfl, by decide⟩
  | list => exact ⟨'[', _, by rw [Form.text], rfl, by decide⟩

/-- The first character tells what a form is. -/
theorem mark?_eq {f f' : Form} (h : f.Plain) (h' : f'.Plain) {r r' : List Char}
    (heq : f.text ++ r = f'.text ++ r') : f.mark? = f'.mark? := by
  obtain ⟨c, cs, htext, hmark, -⟩ := h.head
  obtain ⟨c', cs', htext', hmark', -⟩ := h'.head
  rw [htext, htext'] at heq
  obtain rfl : c = c' := (List.cons.inj heq).1
  rw [hmark, hmark']

/-- Behind a word there are brackets or what follows the form. -/
theorem wordEnds_of_follows (brackets : Bool) {r : List Char} (hr : Follows r) :
    ∀ c ∈ ((if brackets then ['[', ']'] else []) ++ r).head?, c ∈ wordEnds := by
  have hfollowers : ∀ c ∈ followers, c ∈ wordEnds :=
      List.all_iff_forall_prop.1 (by decide)
  cases brackets with
  | false => exact fun c hc => hfollowers c (hr c hc)
  | true =>
    rintro _ ⟨⟩
    decide

/-- Brackets do not follow a form. -/
theorem word_of_rest {text : String} {brackets brackets' : Bool} {r r' : List Char}
    (hr : Follows r) (hr' : Follows r')
    (heq : (if brackets then ['[', ']'] else []) ++ r =
      (if brackets' then ['[', ']'] else []) ++ r') :
    Form.word text brackets = .word text brackets' ∧ r = r' := by
  have hbracket : '[' ∉ followers := by decide
  cases brackets with
  | false =>
    cases brackets' with
    | false => exact ⟨rfl, heq⟩
    | true =>
      obtain rfl : r = '[' :: ']' :: r' := heq
      exact (hbracket (hr _ rfl)).elim
  | true =>
    cases brackets' with
    | false =>
      obtain rfl : '[' :: ']' :: r = r' := heq
      exact (hbracket (hr' _ rfl)).elim
    | true =>
      cases heq
      exact ⟨rfl, rfl⟩

/-- What stands between two forms. -/
def IsSeparator (sep : List Char) : Prop := ∃ c more, sep = c :: more ∧ c ∈ [' ', ',']

theorem isSeparator_separator (tag : String) : IsSeparator (separator tag) := by
  unfold separator
  split
  · exact ⟨',', [' '], rfl, by decide⟩
  · exact ⟨' ', [], rfl, by decide⟩

theorem follows_spread {first : List Char} (hfirst : IsSeparator first) (sep : List Char)
    {close : Char} (hclose : close ∈ [')', ']']) (fs : List Form) (r : List Char) :
    Follows (spread first sep fs ++ close :: r) := by
  have hcloses : ∀ c ∈ [')', ']'], c ∈ followers :=
      List.all_iff_forall_prop.1 (by decide)
  have hseparates : ∀ c ∈ [' ', ','], c ∈ followers :=
      List.all_iff_forall_prop.1 (by decide)
  obtain ⟨c, more, rfl, hc⟩ := hfirst
  cases fs with
  | nil =>
    rw [spread]
    rintro _ ⟨⟩
    exact hcloses close hclose
  | cons f fs =>
    rw [spread]
    rintro _ ⟨⟩
    exact hseparates c hc

/-- Nothing is spread exactly where the closing character stands first. -/
theorem spread_cons_ne {first sep : List Char} (hfirst : first = [] ∨ IsSeparator first)
    {close : Char} (hclose : close ∈ [')', ']']) {f : Form} (h : f.Plain) (fs : List Form)
    (r r' : List Char) : spread first sep (f :: fs) ++ r ≠ close :: r' := by
  rw [spread]
  intro heq
  rcases hfirst with rfl | ⟨c, more, rfl, hc⟩
  · have hcloses : ∀ c ∈ [')', ']'], c ∈ followers :=
      List.all_iff_forall_prop.1 (by decide)
    obtain ⟨c, cs, htext, -, hc⟩ := h.head
    rw [htext] at heq
    obtain rfl : c = close := (List.cons.inj heq).1
    exact hc (hcloses c hclose)
  · have hapart : ∀ c ∈ [' ', ','], c ∉ [')', ']'] :=
      List.all_iff_forall_prop.1 (by decide)
    obtain rfl : c = close := (List.cons.inj heq).1
    exact hapart c hc hclose

@[simp] theorem plain_word {text : String} {brackets : Bool} :
    (Form.word text brackets).Plain ↔ IsWord text :=
  ⟨fun h => by cases h; assumption, .word⟩

@[simp] theorem plain_quoted {quote : Char} {value : List Char} :
    (Form.quoted quote value).Plain ↔ quote ∈ ['"', '\''] :=
  ⟨fun h => by cases h; assumption, .quoted⟩

@[simp] theorem plain_node {tag : String} {parts : List Form} :
    (Form.node tag parts).Plain ↔ IsWord tag ∧ ∀ f ∈ parts, f.Plain :=
  ⟨fun h => by cases h; exact ⟨‹_›, ‹_›⟩, fun h => .node h.1 h.2⟩

@[simp] theorem plain_list {items : List Form} : (Form.list items).Plain ↔ ∀ f ∈ items, f.Plain :=
  ⟨fun h => by cases h; assumption, .list⟩

mutual

/-- A text that starts with the text of a form tells the form and what follows it. -/
theorem text_append_inj : ∀ (f f' : Form) (r r' : List Char), f.Plain → f'.Plain → Follows r →
    Follows r' → f.text ++ r = f'.text ++ r' → f = f' ∧ r = r'
  | .word text brackets, f', r, r', h, h', hr, hr', heq => by
    have hmark := mark?_eq h h' heq
    cases f' with
    | word text' brackets' =>
      rw [Form.text, Form.text, List.append_assoc, List.append_assoc] at heq
      obtain ⟨rfl, hrest⟩ := (plain_word.1 h).append_inj (plain_word.1 h')
        (wordEnds_of_follows brackets hr) (wordEnds_of_follows brackets' hr') heq
      exact word_of_rest hr hr' hrest
    | quoted | node | list => cases hmark
  | .quoted quote value, f', r, r', h, h', hr, hr', heq => by
    have hmark := mark?_eq h h' heq
    have hquote := plain_quoted.1 h
    cases f' with
    | word => cases hmark
    | quoted quote' value' =>
      cases hmark
      rw [Form.text, Form.text, List.cons_append, List.cons_append, List.append_assoc,
        List.append_assoc] at heq
      obtain ⟨rfl, rfl⟩ := Text.visible_quote_inj hquote (List.cons.inj heq).2
      exact ⟨rfl, rfl⟩
    | node | list =>
      cases hmark
      exact absurd hquote (by decide)
  | .node tag parts, f', r, r', h, h', hr, hr', heq => by
    have hmark := mark?_eq h h' heq
    obtain ⟨htag, hparts⟩ := plain_node.1 h
    cases f' with
    | word | list => cases hmark
    | quoted quote value =>
      cases hmark
      exact absurd (plain_quoted.1 h') (by decide)
    | node tag' parts' =>
      obtain ⟨htag', hparts'⟩ := plain_node.1 h'
      simp only [Form.text, List.cons_append, List.append_assoc, List.nil_append,
        List.cons.injEq, true_and] at heq
      have hblank : IsSeparator [' '] := ⟨' ', [], rfl, by decide⟩
      obtain ⟨rfl, hrest⟩ := htag.append_inj htag'
        (wordEnds_of_follows false (follows_spread hblank _ (by decide) parts r))
        (wordEnds_of_follows false (follows_spread hblank _ (by decide) parts' r')) heq
      obtain ⟨rfl, rfl⟩ := spread_append_inj parts parts' _ _ _ r r' hparts hparts' (.inr hblank)
        (isSeparator_separator tag) (by decide) hrest
      exact ⟨rfl, rfl⟩
  | .list items, f', r, r', h, h', hr, hr', heq => by
    have hmark := mark?_eq h h' heq
    cases f' with
    | word | node => cases hmark
    | quoted quote value =>
      cases hmark
      exact absurd (plain_quoted.1 h') (by decide)
    | list items' =>
      simp only [Form.text, List.cons_append, List.append_assoc, List.nil_append,
        List.cons.injEq, true_and] at heq
      obtain ⟨rfl, rfl⟩ := spread_append_inj items items' _ _ _ r r' (plain_list.1 h)
        (plain_list.1 h') (.inl rfl) ⟨',', [' '], rfl, by decide⟩ (by decide) heq
      exact ⟨rfl, rfl⟩

theorem spread_append_inj : ∀ (fs fs' : List Form) (first sep : List Char) (close : Char)
    (r r' : List Char), (∀ f ∈ fs, f.Plain) → (∀ f ∈ fs', f.Plain) →
    first = [] ∨ IsSeparator first → IsSeparator sep → close ∈ [')', ']'] →
    spread first sep fs ++ close :: r = spread first sep fs' ++ close :: r' → fs = fs' ∧ r = r'
  | [], [], first, sep, close, r, r', h, h', hfirst, hsep, hclose, heq =>
    ⟨rfl, (List.cons.inj heq).2⟩
  | [], f' :: fs', first, sep, close, r, r', h, h', hfirst, hsep, hclose, heq =>
    absurd heq.symm (spread_cons_ne hfirst hclose (List.forall_mem_cons.1 h').1 fs' _ _)
  | f :: fs, [], first, sep, close, r, r', h, h', hfirst, hsep, hclose, heq =>
    absurd heq (spread_cons_ne hfirst hclose (List.forall_mem_cons.1 h).1 fs _ _)
  | f :: fs, f' :: fs', first, sep, close, r, r', h, h', hfirst, hsep, hclose, heq => by
    obtain ⟨hf, hfs⟩ := List.forall_mem_cons.1 h
    obtain ⟨hf', hfs'⟩ := List.forall_mem_cons.1 h'
    simp only [spread, List.append_assoc, List.append_cancel_left_eq] at heq
    obtain ⟨rfl, hrest⟩ := text_append_inj f f' _ _ hf hf' (follows_spread hsep sep hclose fs r)
      (follows_spread hsep sep hclose fs' r') heq
    obtain ⟨rfl, rfl⟩ := spread_append_inj fs fs' sep sep close r r' hfs hfs' (.inr hsep) hsep
      hclose hrest
    exact ⟨rfl, rfl⟩

end

/-- Forms with the same text are the same. -/
theorem text_inj {f f' : Form} (h : f.Plain) (h' : f'.Plain) (heq : f.text = f'.text) : f = f' :=
  (text_append_inj f f' [] [] h h' nofun nofun (by rw [heq])).1

end Form

end Javelet

import Javelet.Source

/-!
# Raw text that decodes to itself

Decoding changes a text at unicode escapes and at line ends only. A text in which every backslash
stands before a character other than `u` and behind an even number of backslashes, and which has
no carriage return, is decoded character by character.
-/
namespace Javelet.Source

/-- Raw text that decoding leaves as it is, where an even number of backslashes stands before it.
Then an even number of backslashes stands behind it, too. -/
def Verbatim (text : List Char) : Prop :=
  ∀ done p rest, ∃ (chars : List SourceChar) (after : Position),
    chars.map SourceChar.char = text ∧
    decodeFrom done p false (text ++ rest) = decodeFrom (chars.reverse ++ done) after false rest

theorem decodeFrom_char {done : List SourceChar} {p after : Position} {odd odd' : Bool}
    {cs rest : List Char} {c : Char} (h : front p odd cs = .char c after odd' rest) :
    decodeFrom done p odd cs = decodeFrom (⟨c, p⟩ :: done) after odd' rest := by
  rw [decodeFrom]
  split
  · rename_i found
    cases h.symm.trans found
  · rename_i found
    cases h.symm.trans found
  · rename_i found
    cases h.symm.trans found
    rfl

theorem decodeFrom_finish {done : List SourceChar} {p : Position} {odd : Bool} {cs : List Char}
    (h : front p odd cs = .finish) : decodeFrom done p odd cs = ⟨done.reverse, p, none⟩ := by
  rw [decodeFrom]
  split
  · rfl
  · rename_i found
    cases h.symm.trans found
  · rename_i found
    cases h.symm.trans found

theorem decodeFrom_fault {done : List SourceChar} {p : Position} {odd : Bool} {cs : List Char}
    {f : Lexeme.Fault} (h : front p odd cs = .fault f) :
    decodeFrom done p odd cs = ⟨done.reverse, p, some ⟨f, p⟩⟩ := by
  rw [decodeFrom]
  split
  · rename_i found
    cases h.symm.trans found
  · rename_i found
    cases h.symm.trans found
    rfl
  · rename_i found
    cases h.symm.trans found

theorem decodeFrom_nil (done : List SourceChar) (p : Position) (odd : Bool) :
    decodeFrom done p odd [] = ⟨done.reverse, p, none⟩ :=
  decodeFrom_finish rfl

theorem verbatim_nil : Verbatim [] := fun _ p _ => ⟨[], p, rfl, rfl⟩

theorem Verbatim.append {text text' : List Char} (h : Verbatim text) (h' : Verbatim text') :
    Verbatim (text ++ text') := by
  intro done p rest
  obtain ⟨chars, after, htext, hdecode⟩ := h done p (text' ++ rest)
  obtain ⟨chars', after', htext', hdecode'⟩ := h' (chars.reverse ++ done) after rest
  refine ⟨chars ++ chars', after', ?_, ?_⟩
  · rw [List.map_append, htext, htext']
  · rw [List.append_assoc, hdecode, hdecode', List.reverse_append, List.append_assoc]

theorem Verbatim.flatMap {α : Type} {f : α → List Char} {xs : List α}
    (h : ∀ x ∈ xs, Verbatim (f x)) : Verbatim (xs.flatMap f) := by
  induction xs with
  | nil => exact verbatim_nil
  | cons x xs ih =>
    rw [List.flatMap_cons]
    exact (h x (List.mem_cons_self ..)).append (ih fun y hy => h y (List.mem_cons_of_mem _ hy))

/-- Reading one character that does not start anything. -/
theorem front_plain {c : Char} (hslash : c ≠ '\\') (hreturn : c ≠ '\r') (p : Position)
    (odd : Bool) (rest : List Char) :
    ∃ after, front p odd (c :: rest) = .char c after false rest := by
  simp only [front, hslash, hreturn, if_false]
  split
  · exact ⟨_, rfl⟩
  · split
    · exact ⟨_, rfl⟩
    · exact ⟨_, rfl⟩

theorem verbatim_char {c : Char} (hslash : c ≠ '\\') (hreturn : c ≠ '\r') : Verbatim [c] := by
  intro done p rest
  obtain ⟨after, hfront⟩ := front_plain hslash hreturn p false rest
  exact ⟨[⟨c, p⟩], after, rfl, decodeFrom_char hfront⟩

/-- A backslash together with the character behind it. -/
theorem verbatim_pair {c : Char} (hunicode : c ≠ 'u') (hreturn : c ≠ '\r') :
    Verbatim ['\\', c] := by
  intro done p rest
  have hfirst : front p false ('\\' :: c :: rest) = .char '\\' (p.right 1) true (c :: rest) := by
    simp [front, hunicode]
  by_cases hslash : c = '\\'
  · subst hslash
    have hsecond : front (p.right 1) true ('\\' :: rest) =
        .char '\\' ((p.right 1).right 1) false rest := by
      simp [front]
    exact ⟨[⟨'\\', p⟩, ⟨'\\', p.right 1⟩], _, rfl,
      (decodeFrom_char hfirst).trans (decodeFrom_char hsecond)⟩
  · obtain ⟨after, hsecond⟩ := front_plain hslash hreturn (p.right 1) true rest
    exact ⟨[⟨'\\', p⟩, ⟨c, p.right 1⟩], after, rfl,
      (decodeFrom_char hfirst).trans (decodeFrom_char hsecond)⟩

theorem verbatim_of_forall {text : List Char} (h : ∀ c ∈ text, c ≠ '\\' ∧ c ≠ '\r') :
    Verbatim text := by
  rw [← List.flatMap_singleton' text]
  exact .flatMap fun c hc => verbatim_char (h c hc).1 (h c hc).2

/-- A whole text that is verbatim decodes to its characters, without a fault. -/
theorem Verbatim.decode {source : String} (h : Verbatim source.toList) :
    (decode source).chars.map SourceChar.char = source.toList ∧ (decode source).fault = none := by
  obtain ⟨chars, after, htext, hdecode⟩ := h [] .start []
  rw [List.append_nil, List.append_nil, decodeFrom_nil] at hdecode
  rw [Source.decode, hdecode, List.reverse_reverse]
  exact ⟨htext, rfl⟩

end Javelet.Source

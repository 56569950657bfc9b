import Javelet.Proofs.Lexeme.Faults
import Javelet.Proofs.Source.Spans
import Javelet.Proofs.Token.Alternation

/-!
# The course of a lexer

A lexer is called for one result after the other, behind faults, too. Each call but the one that
hands out the fault of the decoding uses up characters, so the calls come to an end, where they
stay. The fault of the decoding is kept from the first call to the last one that has a result: it
comes alone or in place of a scanner's fault, but once in any case.
-/
namespace Javelet

open Lexeme

/-! ## The fault of the decoding -/

namespace Source

theorem Fails.ofDecoding {before after : List Char} {f : Fault} (h : Fails before after f) :
    f.OfDecoding := by
  cases h with
  | escape => exact .inl rfl
  | lineEnd => exact .inr rfl

/-- The characters in front of the fault of a walk stand in front of it. -/
theorem Walk.before_fault {before rest : List Char} {spans : List (List Char)}
    {chars : List SourceChar} {fault : Option (Located Fault)} {f : Located Fault}
    (h : Walk before spans rest chars fault) (hfault : fault = some f) :
    (∀ c ∈ chars, c.position.Before f.position) ∧
      (f.position = placeBehind before ∨ (placeBehind before).Before f.position) := by
  induction h with
  | finish => cases hfault
  | fault _ =>
    cases hfault
    exact ⟨nofun, .inl rfl⟩
  | span hspan _ _ ih =>
    rename_i before _ _ _ _ _ _ _ _
    obtain ⟨hchars, hbehind⟩ := ih hfault
    have hbefore : (placeBehind before).Before f.position := by
      have hstep := placeBehind_before hspan.ne_nil before
      rcases hbehind with heq | hbehind
      · rwa [heq]
      · exact hstep.trans hbehind
    exact ⟨List.forall_mem_cons.2 ⟨hbefore, hchars⟩, .inr hbefore⟩

/-- The fault of the decoding is behind everything that has been decoded. -/
theorem decode_fault {source : String} {f : Located Fault} (h : (decode source).fault = some f) :
    f.fault.OfDecoding ∧ ∀ c ∈ (decode source).chars, c.position.Before f.position := by
  obtain ⟨spans, rest, chars, fault, -, hwalk, hdecode⟩ := exists_walk [] source.toList .start
  rw [decode, hdecode] at h ⊢
  rw [List.reverse_nil, List.nil_append]
  refine ⟨?_, (hwalk.before_fault h).1⟩
  rcases hwalk.fault_cases with ⟨hnone, -⟩ | ⟨g, hsome, hfails⟩
  · cases hnone.symm.trans h
  · cases hsome.symm.trans h
    exact hfails.ofDecoding

end Source

namespace Lexer

/-! ## One call -/

/-- A call uses up characters, for a token or for a scanner's fault, or else it hands out the fault
that has been kept. -/
inductive Step (l l' : Lexer) : Except (Located Fault) Token → Prop
  | token {t : Token} {used : List SourceChar} : l.rest = used ++ l'.rest → used ≠ [] →
      l'.pending = l.pending → Step l l' (.ok t)
  | fault {e : Located Fault} {used : List SourceChar} : l.rest = used ++ l'.rest → used ≠ [] →
      l'.pending = l.pending → Raised l.rest e → Step l l' (.error e)
  | pending {f : Located Fault} : l.pending = some f → l' = ⟨[], none⟩ → Step l l' (.error f)

theorem exists_used {cs rest : List SourceChar} (h : rest <:+ cs) (hlt : rest.length < cs.length) :
    ∃ used, cs = used ++ rest ∧ used ≠ [] := by
  obtain ⟨used, rfl⟩ := h
  refine ⟨used, rfl, ?_⟩
  rintro rfl
  exact Nat.lt_irrefl _ hlt

theorem step_of_next {l l' : Lexer} {found : Except (Located Fault) Token}
    (h : l.next = some (found, l')) : Step l l' found := by
  -- a fault that uses up everything is dropped for the fault that has been kept
  have hall : ∀ {e : Located Fault}, Raised l.rest e →
      Step l ⟨[], none⟩ (.error (l.pending.getD e)) := by
    intro e he
    cases hpending : l.pending with
    | none =>
      obtain ⟨c, hc, -⟩ := he.position
      exact .fault (List.append_nil _).symm (List.ne_nil_of_mem hc) hpending.symm he
    | some f => exact .pending hpending rfl
  unfold next at h
  split at h
  · rename_i e hskip
    cases h
    exact hall ((raised_skipTrivia hskip).resolve_right fun ⟨_, hopened, _⟩ => nomatch hopened)
  · obtain ⟨f, hpending, he⟩ := Option.map_eq_some_iff.1 h
    cases he
    exact .pending hpending rfl
  · rename_i c rest hskip
    have hsuffix := skipTrivia_suffix hskip
    obtain ⟨used, hused, hne⟩ := exists_used ((scan_suffix c rest).trans hsuffix)
      (Nat.lt_of_lt_of_le (scan_shorter c rest) hsuffix.length_le)
    simp only at h
    split at h
    · cases h
      exact .token hused hne rfl
    · rename_i e hfound
      have he := (raised_scan hfound).mono hsuffix.subset
      split at h
      · cases h
        exact hall he
      · cases h
        exact .fault hused hne rfl he

/-- What holds at the end of a lexer, and in front of what it hands out if it holds behind it. -/
@[elab_as_elim]
theorem induction {motive : Lexer → Prop} (finish : ∀ l, l.next = none → motive l)
    (step : ∀ l l' found, l.next = some (found, l') → motive l' → motive l) (l : Lexer) :
    motive l := by
  cases h : l.next with
  | none => exact finish l h
  | some result => exact step l result.2 result.1 h (induction finish step result.2)
termination_by l.size
decreasing_by exact next_smaller h

/-! ## All results -/

theorem results_of_none {l : Lexer} (h : l.next = none) : l.results = [] := by
  rw [results, resultsFrom]
  split
  · rfl
  · rename_i hnext
    cases h.symm.trans hnext

theorem resultsFrom_of_next {l l' : Lexer} {found : Except (Located Fault) Token}
    (h : l.next = some (found, l')) (done : List (Except (Located Fault) Token)) :
    l.resultsFrom done = l'.resultsFrom (found :: done) := by
  rw [resultsFrom]
  split
  · rename_i hnext
    cases h.symm.trans hnext
  · rename_i hnext
    cases h.symm.trans hnext
    rfl

theorem resultsFrom_eq (l : Lexer) (done : List (Except (Located Fault) Token)) :
    l.resultsFrom done = done.reverse ++ l.results := by
  induction l using induction generalizing done with
  | finish l h =>
    rw [results_of_none h, List.append_nil, resultsFrom]
    split
    · rfl
    · rename_i hnext
      cases h.symm.trans hnext
  | step l l' found h ih =>
    rw [results, resultsFrom_of_next h, resultsFrom_of_next h, ih, ih]
    simp

theorem results_of_next {l l' : Lexer} {found : Except (Located Fault) Token}
    (h : l.next = some (found, l')) : l.results = found :: l'.results := by
  rw [results, resultsFrom_of_next h, resultsFrom_eq]
  rfl

theorem results_at_end : results ⟨[], none⟩ = [] := results_of_none rfl

theorem length_results_le (l : Lexer) : l.results.length ≤ l.size := by
  induction l using induction with
  | finish l h =>
    rw [results_of_none h]
    exact Nat.zero_le _
  | step l l' found h ih =>
    rw [results_of_next h]
    exact Nat.lt_of_le_of_lt ih (next_smaller h)

/-- The results of a lexer are tokens and scanners' faults, and at the end the fault of the decoding
if there is one. -/
theorem exists_results (l : Lexer) :
    ∃ scanned, l.results = scanned ++ l.pending.toList.map .error ∧
      ∀ e, .error e ∈ scanned → Raised l.rest e := by
  induction l using induction with
  | finish l h =>
    refine ⟨[], ?_, nofun⟩
    rw [results_of_none h, (next_eq_none.1 h).1]
    rfl
  | step l l' found h ih =>
    rw [results_of_next h]
    obtain ⟨scanned, hresults, hscanned⟩ := ih
    have hmono : ∀ {used}, l.rest = used ++ l'.rest → ∀ e, .error e ∈ scanned → Raised l.rest e :=
      fun hrest e he => (hscanned e he).mono (hrest ▸ List.subset_append_right ..)
    cases step_of_next h with
    | token hrest _ hpending =>
      rw [hresults, hpending]
      refine ⟨_ :: scanned, rfl, fun e he => hmono hrest e ?_⟩
      exact (List.mem_cons.1 he).resolve_left nofun
    | fault hrest _ hpending hraised =>
      rw [hresults, hpending]
      refine ⟨_ :: scanned, rfl, fun e he => ?_⟩
      rcases List.mem_cons.1 he with heq | he
      · cases heq
        exact hraised
      · exact hmono hrest e he
    | pending hpending hend =>
      rw [hpending, hend, results_at_end]
      exact ⟨[], rfl, nofun⟩

/-- There are tokens if no result is a fault, and else the first fault. -/
theorem tokensFrom_cases (l : Lexer) (done : List Token) :
    (∃ ts, l.tokensFrom done = .ok ts ∧ ∀ e, .error e ∉ l.results) ∨
      ∃ e, l.tokensFrom done = .error e ∧ .error e ∈ l.results := by
  induction l using induction generalizing done with
  | finish l h =>
    rw [tokensFrom]
    split
    · refine .inl ⟨_, rfl, fun e he => ?_⟩
      rw [results_of_none h] at he
      cases he
    · rename_i hnext
      cases h.symm.trans hnext
    · rename_i hnext
      cases h.symm.trans hnext
  | step l l' found h ih =>
    rw [results_of_next h]
    cases found with
    | ok t =>
      rw [tokensFrom_of_next h]
      refine (ih (t :: done)).imp ?_ ?_
      · rintro ⟨ts, hts, hnone⟩
        exact ⟨ts, hts, fun e he => hnone e ((List.mem_cons.1 he).resolve_left nofun)⟩
      · rintro ⟨e, he, hmem⟩
        exact ⟨e, he, List.mem_cons_of_mem _ hmem⟩
    | error e =>
      rw [tokensFrom]
      split
      · rename_i hnext
        cases h.symm.trans hnext
      · rename_i hnext
        cases h.symm.trans hnext
      · rename_i hnext
        cases h.symm.trans hnext
        exact .inr ⟨e, rfl, List.mem_cons_self ..⟩

/-! ## Call after call -/

/-- A call for a result, and the lexer for the next call. At the end there is no result, and nothing
is left. -/
def call (l : Lexer) : Option (Except (Located Fault) Token) × Lexer :=
  match l.next with
  | none => (none, ⟨[], none⟩)
  | some (found, l') => (some found, l')

/-- The lexer behind a number of calls. -/
def behind (l : Lexer) : Nat → Lexer
  | 0 => l
  | k + 1 => l.call.2.behind k

/-- The result of a call, counted from 0. -/
def result (l : Lexer) (k : Nat) : Option (Except (Located Fault) Token) := (l.behind k).call.1

theorem call_of_none {l : Lexer} (h : l.next = none) : l.call = (none, ⟨[], none⟩) := by
  rw [call, h]

theorem call_of_next {l l' : Lexer} {found : Except (Located Fault) Token}
    (h : l.next = some (found, l')) : l.call = (some found, l') := by
  rw [call, h]

theorem behind_at_end (k : Nat) : behind ⟨[], none⟩ k = ⟨[], none⟩ := by
  induction k with
  | zero => rfl
  | succ k ih => exact ih

theorem behind_succ (l : Lexer) (k : Nat) : l.behind (k + 1) = (l.behind k).call.2 := by
  induction k generalizing l with
  | zero => rfl
  | succ k ih => exact ih l.call.2

theorem result_eq (l : Lexer) (k : Nat) : l.result k = l.results[k]? := by
  induction l using induction generalizing k with
  | finish l h =>
    rw [results_of_none h, List.getElem?_nil, result]
    cases k with
    | zero =>
      rw [behind, call_of_none h]
    | succ k =>
      rw [behind, call_of_none h, behind_at_end]
      rfl
  | step l l' found h ih =>
    rw [results_of_next h, result]
    cases k with
    | zero =>
      rw [behind, call_of_next h]
      rfl
    | succ k =>
      rw [behind, call_of_next h, List.getElem?_cons_succ, ← ih]
      rfl

/-- What is kept was kept from the start. -/
theorem pending_behind {l : Lexer} {k : Nat} {f : Located Fault}
    (h : (l.behind k).pending = some f) : l.pending = some f := by
  induction k with
  | zero => exact h
  | succ k ih =>
    rw [behind_succ] at h
    cases hnext : (l.behind k).next with
    | none =>
      rw [call_of_none hnext] at h
      cases h
    | some result =>
      obtain ⟨found, l'⟩ := result
      rw [call_of_next hnext] at h
      refine ih ?_
      cases step_of_next hnext with
      | token _ _ hpending => rwa [← hpending]
      | fault _ _ hpending _ => rwa [← hpending]
      | pending _ hend =>
        rw [hend] at h
        cases h

end Lexer

/-- The course of calls: what each one results in, and the characters left in front of it. -/
structure Course (decoded : Source.Decoded)
    (result : Nat → Option (Except (Located Fault) Token)) (left : Nat → List SourceChar) :
    Prop where
  /-- There are results up to some call, and none from then on. -/
  ends : ∃ n ≤ decoded.chars.length + 1, ∀ k, result k = none ↔ n ≤ k
  /-- A call that results in anything else than the fault of the decoding uses up characters. -/
  consumes : ∀ k found, result k = some found →
    (∀ f, decoded.fault = some f → found ≠ .error f) →
    ∃ used, used ≠ [] ∧ left k = used ++ left (k + 1)
  /-- The fault of the decoding is the last result, and no earlier one. -/
  last : ∀ f, decoded.fault = some f →
    ∃ n, (∀ k, result k = some (.error f) ↔ k = n) ∧ result (n + 1) = none
  /-- No other result is a fault of this sort. -/
  scanned : ∀ k e, result k = some (.error e) → e.fault.OfDecoding → decoded.fault = some e

namespace Lexer

theorem next_of_result {l : Lexer} {k : Nat} {found : Except (Located Fault) Token}
    (h : l.result k = some found) : (l.behind k).next = some (found, l.behind (k + 1)) := by
  rw [result] at h
  rw [behind_succ]
  cases hnext : (l.behind k).next with
  | none =>
    rw [call_of_none hnext] at h
    cases h
  | some next =>
    rw [call_of_next hnext] at h ⊢
    cases h
    rfl

theorem course_ofSource (source : String) :
    Course (Source.decode source) (ofSource source).result
      fun k => ((ofSource source).behind k).rest := by
  have hpending : (ofSource source).pending = (Source.decode source).fault := rfl
  obtain ⟨scanned, hresults, hscanned⟩ := exists_results (ofSource source)
  rw [hpending] at hresults
  have hkind : ∀ e, .error e ∈ scanned → ¬ e.fault.OfDecoding := fun e he => (hscanned e he).scanned
  refine ⟨⟨(ofSource source).results.length, ?_, fun k => ?_⟩, fun k found hfound hother => ?_,
    fun f hf => ⟨scanned.length, fun k => ?_, ?_⟩, fun k e he hdecoding => ?_⟩
  · refine Nat.le_trans (length_results_le _) (Nat.add_le_add_left ?_ _)
    rw [hpending]
    cases (Source.decode source).fault with
    | none => exact Nat.zero_le _
    | some f => exact Nat.le_refl _
  · rw [result_eq, List.getElem?_eq_none_iff]
  · cases step_of_next (next_of_result hfound) with
    | token hrest hne _ => exact ⟨_, hne, hrest⟩
    | fault hrest hne _ _ => exact ⟨_, hne, hrest⟩
    | pending hkept _ => exact absurd rfl (hother _ (pending_behind hkept))
  · have hdecoding := (Source.decode_fault hf).1
    rw [result_eq, hresults, hf]
    constructor
    · intro hk
      rcases Nat.lt_or_ge k scanned.length with hlt | hge
      · rw [List.getElem?_append_left hlt] at hk
        exact absurd hdecoding (hkind f (List.mem_of_getElem? hk))
      · rw [List.getElem?_append_right hge] at hk
        have hlast := List.getElem?_eq_some_iff.1 hk
        exact Nat.le_antisymm (Nat.le_of_sub_eq_zero (Nat.lt_one_iff.1 hlast.1)) hge
    · rintro rfl
      simp
  · rw [result_eq, hresults, hf]
    simp
  · rw [result_eq, hresults] at he
    rcases List.mem_append.1 (List.mem_of_getElem? he) with hmem | hmem
    · exact absurd hdecoding (hkind e hmem)
    · simpa [eq_comm] using hmem

end Lexer

/-- What stops the tokens of a source text is a scanner's fault or the fault of the decoding. -/
theorem fault_of_tokenize {source : String} {e : Located Fault} (h : tokenize source = .error e) :
    Raised (Source.decode source).chars e ∨ (Source.decode source).fault = some e := by
  rcases (Lexer.ofSource source).tokensFrom_cases [] with ⟨ts, hts, -⟩ | ⟨e', he', hmem⟩
  · cases h.symm.trans hts
  · cases h.symm.trans he'
    obtain ⟨scanned, hresults, hscanned⟩ := (Lexer.ofSource source).exists_results
    rw [hresults] at hmem
    rcases List.mem_append.1 hmem with hmem | hmem
    · exact .inl (hscanned e hmem)
    · obtain ⟨f, hf, hsame⟩ := List.mem_map.1 hmem
      cases hsame
      exact .inr (Option.mem_toList.1 hf)

/-- A lexer that is called over and over comes to its end after at most one call more than there are
decoded characters, and stays there. Up to then each call uses up characters, but for the one that
hands out the fault of the decoding: the last one, if there is such a fault. So a source text has
tokens exactly if it is decoded without a fault and no scanner finds one; and what stops the tokens
of a text that cannot be decoded is not behind the place where the decoding stops. -/
theorem lexer_course (source : String) :
    Course (Source.decode source) (Lexer.ofSource source).result
        (fun k => ((Lexer.ofSource source).behind k).rest) ∧
      ((∃ tokens, tokenize source = .ok tokens) ↔ (Source.decode source).fault = none ∧
        ∀ k e, (Lexer.ofSource source).result k ≠ some (.error e)) ∧
      ∀ f, (Source.decode source).fault = some f → ∃ e, tokenize source = .error e ∧
        (e.position = f.position ∨ e.position.Before f.position) := by
  have hcourse := Lexer.course_ofSource source
  have hresults : (∀ k e, (Lexer.ofSource source).result k ≠ some (.error e)) ↔
      ∀ e, .error e ∉ (Lexer.ofSource source).results := by
    simp only [List.mem_iff_getElem?, not_exists, Lexer.result_eq]
    exact forall_comm
  have hcases := (Lexer.ofSource source).tokensFrom_cases []
  refine ⟨hcourse, ⟨?_, ?_⟩, fun f hf => ?_⟩
  · rintro ⟨tokens, htokens⟩
    rcases hcases with ⟨-, -, hnone⟩ | ⟨e, he, -⟩
    · refine ⟨Option.eq_none_iff_forall_ne_some.2 fun f hf => ?_, hresults.2 hnone⟩
      obtain ⟨n, hn, -⟩ := hcourse.last f hf
      exact hresults.2 hnone n f ((hn n).2 rfl)
    · cases htokens.symm.trans he
  · rintro ⟨-, hnone⟩
    rcases hcases with ⟨tokens, htokens, -⟩ | ⟨e, -, hmem⟩
    · exact ⟨tokens, htokens⟩
    · exact absurd hmem (hresults.1 hnone e)
  · obtain ⟨n, hn, -⟩ := hcourse.last f hf
    rcases hcases with ⟨-, -, hnone⟩ | ⟨e, he, -⟩
    · exact absurd ((hn n).2 rfl) (hresults.2 hnone n f)
    · refine ⟨e, he, ?_⟩
      rcases fault_of_tokenize he with hraised | hsame
      · obtain ⟨c, hc, hposition⟩ := hraised.position
        exact .inr (hposition ▸ (Source.decode_fault hf).2 c hc)
      · cases hf.symm.trans hsame
        exact .inl rfl

end Javelet

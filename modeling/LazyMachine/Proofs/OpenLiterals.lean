import LazyMachine.Postfix.Continuation
import LazyMachine.Proofs.Scanning

/-!
# Open literals

Whether a source of several lines goes on is decided by `openQuote?`, which looks for quotes and
knows no words. The scanner opens a literal only where a token starts. The two agree as long as no
quote stands inside a word: each character then leads them to corresponding states
(`openQuote?_of_next`), so a text that the scanner reads leaves a literal open exactly if it asks
for another line (`needsMore_iff_unterminated`).
-/

namespace LazyMachine.Postfix

/-- The literal that is open in a state of the scanner. -/
def Scan.openMark? : Scan → Option Char
  | .literal q _ => some q.mark
  | .escaped q _ => some q.mark
  | _ => none

/-- Whether a backslash stands last. -/
def Scan.isEscaped : Scan → Bool
  | .escaped _ _ => true
  | _ => false

/-- Whether a word is under way. -/
def Scan.isWord : Scan → Bool
  | .word _ => true
  | _ => false

/-- Whether a quote stands inside a word before the scanner stops. -/
def quoteInWord : Scan → List Char → Bool
  | _, [] => false
  | s, c :: cs =>
    (s.isWord && (Quote.ofMark? c).isSome) ||
      match s.next c with
      | .ok (s', _) => quoteInWord s' cs
      | .error _ => false

section Reading

variable {s s' : Scan} {c : Char} {cs : List Char} {ts : List Token}

/-- At the end of a source the literal that is open is missing its delimiter. -/
theorem scan_nil_eq_unterminated_iff (hescaped : s.isEscaped = false) :
    (∃ q, scan s [] = .error (.unterminated q)) ↔ s.openMark?.isSome = true := by
  cases s with
  | between => simp [scan, Scan.openMark?]
  | word read => simp [scan, Scan.openMark?]
  | literal q read => simp [scan, Scan.openMark?]
  | escaped q read => cases hescaped

/-- A character leads both ways of looking for literals to corresponding states. -/
theorem openQuote?_of_next (h : s.next c = .ok (s', ts))
    (hword : s.isWord = true → Quote.ofMark? c = none) :
    openQuote? s.openMark? s.isEscaped (c :: cs) = openQuote? s'.openMark? s'.isEscaped cs := by
  have hplain : Quote.ofMark? c = none → ¬ (c = '"' ∨ c = '\'') := by
    rintro hc (rfl | rfl) <;> cases hc
  have hmark : ∀ q : Quote, q.mark = '"' ∨ q.mark = '\'' := by
    rintro (_ | _)
    · exact .inl rfl
    · exact .inr rfl
  -- what is open behind the character, as the search without words finds it in each case
  cases Scan.steps_of_next h with
  | skips hblank =>
    have hnone : Quote.ofMark? c = none := by
      cases hq : Quote.ofMark? c with
      | none => rfl
      | some q =>
        rw [Quote.eq_mark hq, q.isBlank_mark] at hblank
        cases hblank
    simp only [Scan.openMark?, Scan.isEscaped, openQuote?, if_neg (hplain hnone)]
  | @opens _ q hquote =>
    obtain rfl := Quote.eq_mark hquote
    simp only [Scan.openMark?, Scan.isEscaped, openQuote?, if_pos (hmark q)]
  | starts _ hquote =>
    simp only [Scan.openMark?, Scan.isEscaped, openQuote?, if_neg (hplain hquote)]
  | ends _ =>
    simp only [Scan.openMark?, Scan.isEscaped, openQuote?, if_neg (hplain (hword rfl))]
  | extendsWord _ =>
    simp only [Scan.openMark?, Scan.isEscaped, openQuote?, if_neg (hplain (hword rfl))]
  | @closes q read t _ =>
    simp only [Scan.openMark?, Scan.isEscaped, openQuote?, if_neg q.mark_ne_slash, if_true]
  | escapes => simp only [Scan.openMark?, Scan.isEscaped, openQuote?, if_true]
  | extendsLiteral hmark hslash =>
    simp only [Scan.openMark?, Scan.isEscaped, openQuote?, if_neg hslash, if_neg hmark]
  | stands _ => simp only [Scan.openMark?, Scan.isEscaped, openQuote?]

/-- What a run of the scanner leaves open is found open. -/
theorem Scan.Reads.openQuote?_eq (h : s.Reads cs ts s') (hquote : quoteInWord s cs = false) :
    openQuote? s.openMark? s.isEscaped cs = s'.openMark? := by
  induction h with
  | nil s => rw [openQuote?]
  | @cons s s₁ s' c cs ts₁ ts hnext _ ih =>
    rw [quoteInWord, hnext, Bool.or_eq_false_iff] at hquote
    have hword : s.isWord = true → Quote.ofMark? c = none := by
      intro hs
      rw [hs, Bool.true_and] at hquote
      exact Option.isNone_iff_eq_none.mp (Option.isSome_eq_false_iff.mp hquote.1)
    rw [openQuote?_of_next hnext hword]
    exact ih hquote.2

end Reading

/-- A source asks for another line exactly if a literal of it is not terminated, provided that no
quote stands inside a word, that it does not end with a backslash and that nothing else is wrong. -/
theorem needsMore_iff_unterminated {text : List Char}
    (hend : (Text.trimEnd text).getLast? ≠ some '\\')
    (hquote : quoteInWord .between text = false)
    (herror : ∀ e, tokenize (String.ofList text) = .error e → ∃ q, e = .unterminated q) :
    needsMore text = true ↔ ∃ q, tokenize (String.ofList text) = .error (.unterminated q) := by
  have hneeds : needsMore text = (openQuote? none false text).isSome := by
    unfold needsMore
    cases openQuote? none false text with
    | none => simp [hend]
    | some q => rfl
  simp only [tokenize, String.toList_ofList] at herror ⊢
  rw [hneeds]
  obtain ⟨ts, s', hreads⟩ | ⟨e, hne, he⟩ := Scan.reads_or_fails .between text
  · have hopen : openQuote? none false text = s'.openMark? := hreads.openQuote?_eq hquote
    have hscan := hreads.scan_append []
    rw [List.append_nil] at hscan
    rw [hscan] at herror ⊢
    rw [hopen, ← scan_nil_eq_unterminated_iff]
    · cases scan s' [] with
      | ok us => simp [Except.map]
      | error e => simp [Except.map]
    · -- a backslash behind which nothing stands is an error of its own
      cases s' with
      | escaped q read =>
        obtain ⟨p, hp⟩ := herror .danglingEscape rfl
        cases hp
      | _ => rfl
  · have hfail := he []
    rw [List.append_nil] at hfail
    obtain ⟨q, hq⟩ := herror e hfail
    exact absurd hq (hne q)

/-- A string that holds the other quote and its own delimiter, and is not closed. -/
def halfQuoted : List Char :=
  "tag:Said \"it's \\\"so".toList

theorem needsMore_iff_unterminated_halfQuoted :
    (Text.trimEnd halfQuoted).getLast? ≠ some '\\' ∧ quoteInWord .between halfQuoted = false ∧
      tokenize (String.ofList halfQuoted) = .error (.unterminated .double) ∧
      (needsMore halfQuoted = true ↔
        ∃ q, tokenize (String.ofList halfQuoted) = .error (.unterminated q)) := by
  have hend : (Text.trimEnd halfQuoted).getLast? ≠ some '\\' := by decide +kernel
  have hquote : quoteInWord .between halfQuoted = false := by decide +kernel
  have hopen : tokenize (String.ofList halfQuoted) = .error (.unterminated .double) := by rfl
  refine ⟨hend, hquote, hopen, needsMore_iff_unterminated hend hquote ?_⟩
  intro e he
  rw [hopen] at he
  cases he
  exact ⟨.double, rfl⟩

/-- A quote inside a word asks for another line that the tokens do not need, and a literal behind
such a quote is left open without one being asked for. -/
theorem needsMore_ignores_words :
    ((Text.trimEnd "don't".toList).getLast? ≠ some '\\' ∧ needsMore "don't".toList = true ∧
        tokenize "don't" = .ok [.word "don't"]) ∧
      (Text.trimEnd "a\"b \"c".toList).getLast? ≠ some '\\' ∧
        needsMore "a\"b \"c".toList = false ∧
        tokenize "a\"b \"c" = .error (.unterminated .double) := by
  refine ⟨⟨?_, ?_, ?_⟩, ?_, ?_, ?_⟩
  · decide +kernel
  · decide +kernel
  · rfl
  · decide +kernel
  · decide +kernel
  · rfl

end LazyMachine.Postfix
